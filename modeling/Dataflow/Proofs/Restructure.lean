import Dataflow.Proofs.Edits

/-!
# Structural calls

Every structural call, the removal of a node aside, amounts to edits of single nodes, of each of which is told at once. A call that
is refused changes nothing but the journal.
-/

namespace Dataflow

namespace Journal

/-- No callback is invoked, and no invariant is found violated. -/
structure Silent (j j' : Journal) : Prop where
  violation : j.violation = none → j'.violation = none
  events : j'.events = j.events

theorem Silent.refl (j : Journal) : j.Silent j := ⟨id, rfl⟩

theorem Silent.trans {j j' j'' : Journal} (h : j.Silent j') (h' : j'.Silent j'') : j.Silent j'' :=
  ⟨fun hv => h'.violation (h.violation hv), h'.events.trans h.events⟩

theorem silent_notice (j : Journal) (n : Notice) : j.Silent (j.notice n) := by
  rw [notice]
  split
  · exact .refl j
  · exact ⟨id, rfl⟩

/-- An invariant that holds is checked. -/
theorem silent_check (j : Journal) (i : Invariant) {b : Bool} (hb : b = true) (t : String) : j.Silent (j.check i b t) := by
  rw [check, if_pos hb]
  split
  · exact .refl j
  · exact ⟨id, rfl⟩

end Journal

namespace Graph

variable {g g' : Graph} {p c n : NodeId} {call : Call}

theorem Authored.journal (ha : g.Authored) (j : Journal) : Authored { g with journal := j } :=
  ⟨ha.live, ha.parents, ha.acyclic, ha.dataRefs, ha.single⟩

theorem Touched.of_journal {j : Journal} (h : Touched call { g with journal := j } g' p) : Touched call g g' p :=
  ⟨h.rest, h.node, h.size, h.next, h.data, h.leaf, h.leafAt, h.dataAt, h.isSome_data, h.authored⟩

/-- What a structural call amounts to: edits of nodes in turn, of each of which is told before anything else is. -/
inductive Revised (call : Call) : Graph → Graph → Prop where
  | done {g : Graph} (journal : Journal) (silent : g.journal.Silent journal) : Revised call g { g with journal }
  | change {g g₁ g' : Graph} {p : NodeId} (touched : Touched call g g₁ p) (silent : g.journal.Silent g₁.journal)
    (rest : Revised call (g₁.structureChanged p) g') : Revised call g g'

theorem Revised.refl (call : Call) (g : Graph) : Revised call g g := .done g.journal (.refl _)

theorem Revised.of_journal {j : Journal} (hj : g.journal.Silent j) (h : Revised call { g with journal := j } g') : Revised call g g' := by
  cases h with
  | done j' hs => exact .done j' (hj.trans hs)
  | change ht hs h => exact .change ht.of_journal (hj.trans hs) h

/-- One edit. -/
theorem Touched.revised (h : Touched call g g' p) (hs : g.journal.Silent g'.journal) : Revised call g (g'.structureChanged p) :=
  .change h hs (.refl call _)

/-- What a call that edits one node comes to: it is refused and changes nothing but the journal, or the node is edited, and told of
before anything else is. -/
inductive Amends (call : Call) (g : Graph) (p : NodeId) : Outcome Unit → Prop where
  | refused (journal : Journal) (silent : g.journal.Silent journal) (e : Error) : Amends call g p ({ g with journal }, .error e)
  | made {g₁ : Graph} (touched : Touched call g g₁ p) (silent : g.journal.Silent g₁.journal) : Amends call g p (g₁.structureChanged p, .ok ())

theorem Noted.silent (h : g.Noted g') {j : Journal} (hj : j.Silent g.journal) : j.Silent g'.journal := by
  obtain ⟨_, rfl⟩ := h.rest
  exact hj

theorem Amends.refuse (call : Call) (g : Graph) (p : NodeId) (e : Error) : Amends call g p (g, .error e) := .refused g.journal (.refl _) e

theorem Amends.revised {o : Outcome Unit} (h : Amends call g p o) : Revised call g o.1 := by
  cases h with
  | refused journal hs e => exact .done journal hs
  | made ht hs => exact ht.revised hs

theorem Amends.of_journal {j : Journal} {o : Outcome Unit} (hj : g.journal.Silent j) (h : Amends call { g with journal := j } p o) :
    Amends call g p o := by
  cases h with
  | refused journal hs e => exact .refused journal (hj.trans hs) e
  | made ht hs => exact .made ht.of_journal (hj.trans hs)

/-! ## Edits of data nodes -/

section Data

variable (ha : g.Authored)

theorem count_single (a b : NodeId) : [a].count b = if b = a then 1 else 0 := by
  by_cases h : b = a
  · simp [h]
  · simp [h, Ne.symm h]

theorem data?_of_checkChild (h : g.checkChild p c = .ok ()) : ∃ d, g.data? p = some d ∧ d.source = none := by
  rw [checkChild] at h
  rcases hr : g.requireData p with e | d
  · rw [hr] at h
    cases h
  · refine ⟨d, data?_of_requireData hr, ?_⟩
    rcases hs : d.source with _ | r
    · rfl
    · rw [hr] at h
      simp only [bind, Except.bind, hs, Option.isSome_some, if_true] at h
      cases h

/-- The source of a node leaves no room for children. -/
theorem Authored.children_eq_nil (ha : g.Authored) {d : DataNode} (hd : g.data? p = some d) {r : NodeId} (hr : d.source = some r) :
    d.children = [] := ha.single p d.design (design?_of_data? hd) r hr

/-- The graph in which `child` is among the children of `p` once more, wherever. -/
theorem touched_addChild (call : Call) (ha : g.Authored) {d : DataNode} (hd : g.data? p = some d) (hs : d.source = none)
    (hc : (g.node? c).isSome ∧ ¬ g.Below c p) {f : List NodeId → List NodeId}
    (hf : ∀ m, (f d.children).count m = d.children.count m + if m = c then 1 else 0) (j : Journal) :
    Touched call g ((modifyData { g with journal := j } p fun d => { d with children := f d.children }).link p c) p := by
  refine Touched.of_journal (Noted.touched call (ha.journal j) hd (.modifyParents _ c _) (fun q m => ?_) (fun r hr => ?_)
    (fun r hr => .inl hr) (fun r hr => absurd (hs.symm.trans hr) nofun) rfl rfl (.inl rfl))
  · refine Eq.trans (congrArg (· + _) (count_parentsOf_link (by rw [isSome_node?_modifyData]; exact hc.1) q)) ?_
    rw [parentsOf_modifyData]
    simp only [DataNode.references, List.count_append, hf]
    by_cases hq : q = p
    · simp only [hq, and_true, if_true]
      rw [show parentsOf { g with journal := j } m = g.parentsOf m from rfl]
      omega
    · simp only [hq, and_false, if_false]
  · by_cases hrc : r = c
    · subst hrc
      exact .inr hc
    · refine .inl ?_
      have hcount := hf r
      rw [if_neg hrc, Nat.add_zero] at hcount
      simp only [DataNode.references, List.mem_append] at hr ⊢
      rw [← List.count_pos_iff, hcount, List.count_pos_iff] at hr
      exact hr

/-- An accepted reference closes no cycle. -/
theorem silent_accepted (h : ¬ g.Below c p) : g.journal.Silent (g.accepted p c).journal :=
  have hne : p ≠ c := fun he => h (he ▸ Leads.refl _)
  g.journal.silent_check .graphAcyclic (decide_eq_true hne) "check_edge"

include ha

theorem amends_appendChild : Amends (.appendChild p c) g p (g.appendChild p c) := by
  rw [appendChild]
  rcases hc : g.checkChild p c with e | _
  · exact .refuse _ g p e
  · obtain ⟨d, hd, hs⟩ := data?_of_checkChild hc
    have hlive := ha.of_checkChild hc
    exact .made (touched_addChild _ ha hd hs hlive (f := (· ++ [c])) (fun m => by
      rw [List.count_append, count_single]) _) (silent_accepted hlive.2)

theorem amends_insertBefore (before : NodeId) : Amends (.insertBefore p c before) g p (g.insertBefore p c before) := by
  rw [insertBefore]
  rcases hc : g.checkChild p c with e | _
  · exact .refuse _ g p e
  · obtain ⟨d, hd, hs⟩ := data?_of_checkChild hc
    have hlive := ha.of_checkChild hc
    dsimp only
    split
    · exact .refused _ (silent_accepted hlive.2) _
    · rename_i i hi
      -- the position is within the children
      have hle : i ≤ d.children.length := by
        have : ((g.data? p).map (·.children)).bind (·.idxOf? before) = some i := hi
        rw [hd, Option.map_some, Option.bind_some] at this
        exact Nat.le_of_lt (List.idxOf?_eq_some_iff.1 this).1
      refine .made (touched_addChild _ ha hd hs hlive (f := (·.insertIdx i c)) (fun m => ?_) _) (silent_accepted hlive.2)
      rw [(List.perm_insertIdx c d.children hle).count_eq, List.count_cons]
      by_cases hm : m = c
      · simp [hm]
      · simp [hm, Ne.symm hm]

theorem amends_removeChild : Amends (.removeChild p c) g p (g.removeChild p c) := by
  rw [removeChild]
  rcases hr : g.requireData p with e | d
  · exact .refuse _ g p e
  · have hd := data?_of_requireData hr
    dsimp only
    split
    · rename_i hc
      have hc := List.contains_iff_mem.1 hc
      refine .made (Noted.touched (f := fun d => { d with children := d.children.erase c }) _ ha hd
        (.modifyParents _ c _) (fun q m => ?_) (fun r hr => ?_) (fun r hr => .inl hr)
        (fun r hr => by rw [ha.children_eq_nil hd hr]; rfl) rfl rfl (.inl rfl)) (.refl _)
      · refine Eq.trans (congrArg (· + _) (count_parentsOf_unlink q)) ?_
        rw [parentsOf_modifyData, ha.parents, DataNode.references, DataNode.references]
        simp only [List.count_append, List.count_erase]
        by_cases hq : q = p
        · subst hq
          rw [references_of_data? hd, DataNode.references]
          simp only [and_true, if_true, List.count_append]
          by_cases hm : m = c
          · subst hm
            have := List.count_pos_iff.2 hc
            simp only [beq_self_eq_true, if_true]
            omega
          · simp [hm, Ne.symm hm]
        · simp [hq]
      · refine .inl ?_
        simp only [DataNode.references, List.mem_append] at hr ⊢
        exact hr.imp_left (Or.imp_left List.mem_of_mem_erase)
    · exact .refuse _ g p _

theorem amends_clearChildren : Amends (.clearChildren p) g p (g.clearChildren p) := by
  rw [clearChildren]
  rcases hr : g.requireData p with e | d
  · exact .refuse _ g p e
  · have hd := data?_of_requireData hr
    have hnoted := Noted.unlinkAll p d.children (g.modifyData p fun d => { d with children := [] })
    refine .made (Noted.touched (f := fun d => { d with children := [] }) _ ha hd
      hnoted (fun q m => ?_) (fun r hr => ?_) (fun r hr => .inl hr) (fun _ _ => rfl) rfl rfl (.inl rfl)) (hnoted.silent (.refl _))
    · rw [count_parentsOf_unlinkAll, parentsOf_modifyData, ha.parents]
      by_cases hq : q = p
      · subst hq
        rw [references_of_data? hd]
        simp only [DataNode.references, if_true, List.count_append, List.count_nil]
        omega
      · simp [hq]
    · refine .inl ?_
      simp only [DataNode.references, List.mem_append, List.not_mem_nil, false_or] at hr ⊢
      exact hr.imp_left .inr

/-- The graph in which a node's old reference gave way to a new one, before anyone is told. -/
def relinked (g : Graph) (p : NodeId) (old new : Option NodeId) : Graph :=
  let g := match old with
    | some old => g.unlink p old
    | none => g
  match new with
    | some new => g.link p new
    | none => g

omit ha in
theorem noted_relinked (g : Graph) (p : NodeId) (old new : Option NodeId) : g.Noted (g.relinked p old new) := by
  have hlink : ∀ (h : Graph) c, h.Noted (h.link p c) := fun h c => .modifyParents h c _
  have hunlink : ∀ (h : Graph) c, h.Noted (h.unlink p c) := fun h c => .modifyParents h c _
  rcases old with _ | old <;> rcases new with _ | new
  · exact .refl g
  · exact hlink g new
  · exact hunlink g old
  · exact (hunlink g old).trans (hlink _ new)

omit ha in
theorem count_parentsOf_relinked (g : Graph) (p q m : NodeId) (old new : Option NodeId)
    (hnew : ∀ c, new = some c → (g.node? c).isSome) :
    ((g.relinked p old new).parentsOf m).count q =
      (g.parentsOf m).count q - (if q = p then old.toList.count m else 0) + if q = p then new.toList.count m else 0 := by
  have hunlink : ((g.relinked p old none).parentsOf m).count q =
      (g.parentsOf m).count q - if q = p then old.toList.count m else 0 := by
    rcases old with _ | old
    · simp [relinked]
    · refine (count_parentsOf_unlink q).trans ?_
      rw [Option.toList_some, count_single]
      by_cases hq : q = p <;> simp [hq]
  rcases new with _ | new
  · simpa using hunlink
  · have hlive : ((g.relinked p old none).node? new).isSome := by
      rw [(noted_relinked g p old none).node]
      exact hnew new rfl
    refine (count_parentsOf_link (g := g.relinked p old none) (p := p) (m := m) hlive q).trans ?_
    rw [hunlink, Option.toList_some, count_single]
    by_cases hq : q = p <;> simp [hq]

theorem amends_setSource (source : Option NodeId) : Amends (.setSource p source) g p (g.setSource p source) := by
  rw [setSource]
  rcases hr : g.requireData p with e | d
  · exact .refuse _ g p e
  · have hd := data?_of_requireData hr
    have key : (∀ c, source = some c → ((g.data? c).isSome ∧ ¬ g.Below c p) ∧ d.children = []) → ∀ j, g.journal.Silent j →
        Amends (.setSource p source) g p
          (((modifyData { g with journal := j } p fun d => { d with source }).relinked p d.source source).structureChanged p, .ok ()) := by
      intro hs' j hj
      have hs := fun c hc => (hs' c hc).1
      refine .made (Touched.of_journal (Noted.touched (f := fun d => { d with source }) _ (ha.journal j) hd (noted_relinked ..)
        (fun q m => ?_) (fun r hr => ?_) (fun r hr => ?_) (fun r hr => (hs' r hr).2) rfl rfl (.inl rfl))) ((noted_relinked ..).silent hj)
      · rw [count_parentsOf_relinked _ _ _ _ _ _ fun c hc => ?_, parentsOf_modifyData,
          show parentsOf { g with journal := j } m = g.parentsOf m from rfl, ha.parents]
        · by_cases hq : q = p
          · subst hq
            rw [references_of_data? hd]
            simp only [DataNode.references, if_true, List.count_append]
            omega
          · simp [hq]
        · rw [isSome_node?_modifyData]
          exact isSome_node?_of_data? (hs c hc).1
      · simp only [DataNode.references, List.mem_append, Option.mem_toList] at hr ⊢
        rcases hr with (hr | hr) | hr
        · exact .inl (.inl (.inl hr))
        · exact .inr ⟨isSome_node?_of_data? (hs r hr).1, (hs r hr).2⟩
        · exact .inl (.inr hr)
      · rcases hr with hr | hr
        · exact .inr (hs r hr).1
        · exact .inl (.inr hr)
    rcases source with _ | src
    · exact key (fun c hc => by cases hc) g.journal (.refl _)
    · dsimp only
      split
      · exact .refuse _ g p _
      · rename_i hempty
        have hempty : d.children = [] := by simpa using hempty
        rcases hc : g.checkData p src with e | _
        · exact .refuse _ g p e
        · exact key (fun c hc' => by cases hc'; exact ⟨ha.of_checkData hc, hempty⟩) (g.accepted p src).journal
            (silent_accepted (ha.of_checkData hc).2)

theorem amends_setProto (proto : Option NodeId) : Amends (.setProto p proto) g p (g.setProto p proto) := by
  rw [setProto]
  rcases hr : g.requireData p with e | d
  · exact .refuse _ g p e
  · have hd := data?_of_requireData hr
    have key : (∀ c, proto = some c → (g.data? c).isSome ∧ ¬ g.Below c p) → ∀ j, g.journal.Silent j → Amends (.setProto p proto) g p
        (((modifyData { g with journal := j } p fun d => { d with proto }).relinked p d.proto proto).structureChanged p, .ok ()) := by
      intro hs j hj
      refine .made (Touched.of_journal (Noted.touched (f := fun d => { d with proto }) _ (ha.journal j) hd (noted_relinked ..)
        (fun q m => ?_) (fun r hr => ?_) (fun r hr => ?_) (fun r hr => ha.children_eq_nil (d := d) hd hr) rfl rfl (.inr (.inr rfl))))
        ((noted_relinked ..).silent hj)
      · rw [count_parentsOf_relinked _ _ _ _ _ _ fun c hc => ?_, parentsOf_modifyData,
          show parentsOf { g with journal := j } m = g.parentsOf m from rfl, ha.parents]
        · by_cases hq : q = p
          · subst hq
            rw [references_of_data? hd]
            simp only [DataNode.references, if_true, List.count_append]
            omega
          · simp [hq]
        · rw [isSome_node?_modifyData]
          exact isSome_node?_of_data? (hs c hc).1
      · simp only [DataNode.references, List.mem_append, Option.mem_toList] at hr ⊢
        rcases hr with (hr | hr) | hr
        · exact .inl (.inl (.inl hr))
        · exact .inl (.inl (.inr hr))
        · exact .inr ⟨isSome_node?_of_data? (hs r hr).1, (hs r hr).2⟩
      · rcases hr with hr | hr
        · exact .inl (.inl hr)
        · exact .inr (hs r hr).1
    rcases proto with _ | q
    · exact key (fun c hc => by cases hc) g.journal (.refl _)
    · dsimp only
      rcases hc : g.checkData p q with e | _
      · exact .refuse _ g p e
      · exact key (fun c hc' => by cases hc'; exact ha.of_checkData hc) (g.accepted p q).journal (silent_accepted (ha.of_checkData hc).2)

/-- An edit of a data node that leaves its references. -/
theorem amends_updateData (call : Call) (f : DataNode → DataNode)
    (hf : ∀ d, (f d).references = d.references ∧ (f d).source = d.source ∧ (f d).proto = d.proto ∧ (f d).wiring = d.wiring ∧
      (f d).outlets = d.outlets) : Amends call g p (g.updateData p f) := by
  rw [updateData]
  rcases hr : g.requireData p with e | d
  · exact .refuse _ g p e
  · have hd := data?_of_requireData hr
    obtain ⟨hrefs, hs, hp, hw, ho⟩ := hf d
    have he := edited_modifyData g p fun d => (hf d).1
    have hchildren : (f d).children = d.children := by
      simp only [DataNode.references, hs, hp] at hrefs
      exact List.append_cancel_right (List.append_cancel_right hrefs)
    refine .made (he.touched hd (he.authored ha hd (fun c hc => .inl (hrefs ▸ hc)) (fun r hr => .inl ?_) fun r hr => ?_)
      ⟨_, _, rfl⟩ (size_modifyData ..) rfl (fun m => leaf?_modifyData ..) hw ho (.inl hp)) (.refl _)
    · rw [hs, hp] at hr
      exact hr
    · rw [hchildren]
      rw [hs] at hr
      exact ha.children_eq_nil hd hr

theorem amends_setFilter (text : String) : Amends (.setFilter p text) g p (g.setFilter p text) := by
  rw [setFilter]
  rcases Filter.parse text with e | filter
  · exact .of_journal (g.journal.silent_notice _) (amends_updateData (ha.journal _) _ _ fun d => ⟨rfl, rfl, rfl, rfl, rfl⟩)
  · exact amends_updateData ha _ _ fun d => ⟨rfl, rfl, rfl, rfl, rfl⟩

theorem amends_setCompute (text : String) : Amends (.setCompute p text) g p (g.setCompute p text) := by
  rw [setCompute]
  rcases Compute.parse text with e | compute
  · exact .of_journal (g.journal.silent_notice _) (amends_updateData (ha.journal _) _ _ fun d => ⟨rfl, rfl, rfl, rfl, rfl⟩)
  · exact amends_updateData ha _ _ fun d => ⟨rfl, rfl, rfl, rfl, rfl⟩

/-! ## Edits of leaves -/

theorem touched_modifyLeaf (call : Call) (hl : (g.leaf? p).isSome) : Touched call g (g.modifyLeaf p call.editLeaf) p := by
  have hdata : ∀ m, (g.modifyLeaf p call.editLeaf).data? m = g.data? m := fun m => data?_modifyLeaf ..
  have hrefs : (g.modifyLeaf p call.editLeaf).references = g.references := funext fun m => by rw [references, references, hdata]
  have hnone : g.data? p = none := by
    rcases hd : g.data? p with _ | d
    · rfl
    · rw [leaf?_eq_none_of_data? hd] at hl
      cases hl
  refine ⟨⟨_, _, rfl⟩, fun m => isSome_node?_modifyLeaf .., Std.ExtTreeMap.size_modify, rfl, fun m _ => hdata m,
    fun m hm => by rw [leaf?_modifyLeaf, if_neg hm], by rw [leaf?_modifyLeaf, if_pos rfl], fun d' hd' => ?_, by rw [hdata],
    ⟨fun n r hr => ?_, fun q c => ?_, fun n hn => ?_, fun n D hD r hr => ?_, fun n D hD => ?_⟩⟩
  · rw [hdata, hnone] at hd'
    cases hd'
  · rw [isSome_node?_modifyLeaf]
    exact ha.live n r (hrefs ▸ hr)
  · rw [parentsOf_modifyLeaf, hrefs]
    exact ha.parents q c
  · rw [StrictlyBelow, hrefs] at hn
    exact ha.acyclic n hn
  · rw [hdata]
    rw [design?, hdata] at hD
    exact ha.dataRefs n D hD r hr
  · rw [design?, hdata] at hD
    exact ha.single n D hD

theorem amends_updateLeaf (call : Call) : Amends call g p (g.updateLeaf p call.editLeaf) := by
  rw [updateLeaf]
  rcases hl : g.leaf? p with _ | l
  · exact .refuse _ g p _
  · exact .made (touched_modifyLeaf ha call (by rw [hl]; rfl)) (.refl _)

/-! ## Detaching -/

/-- A node no longer refers to another one. -/
theorem touched_detach (call : Call) {d : DataNode} (hd : g.data? p = some d) :
    Touched call g ((g.modifyData p fun d => { d with
      children := d.children.filter (· ≠ n), source := d.source.filter (· ≠ n), proto := d.proto.filter (· ≠ n) }).modifyParents n
        (·.filter (· ≠ p))) p := by
  have htoList : ∀ o : Option NodeId, (o.filter (· ≠ n)).toList = o.toList.filter (· ≠ n) := by
    rintro (_ | r)
    · rfl
    · by_cases hr : r = n <;> simp [Option.filter, hr]
  have hrefs : ∀ m, ((d.children.filter (· ≠ n)) ++ (d.source.filter (· ≠ n)).toList ++ (d.proto.filter (· ≠ n)).toList).count m =
      if m = n then 0 else d.references.count m := by
    intro m
    rw [htoList, htoList, ← List.filter_append, ← List.filter_append]
    by_cases hm : m = n
    · rw [if_pos hm]
      exact List.count_eq_zero_of_not_mem fun h => by simpa [hm] using (List.mem_filter.1 h).2
    · rw [if_neg hm, List.count_filter (by simpa using hm)]
      rfl
  have hof : ∀ {o : Option NodeId} {r}, o.filter (· ≠ n) = some r → o = some r := by
    intro o r h
    obtain ⟨hr, -⟩ := Option.filter_eq_some_iff.1 h
    exact hr
  refine Noted.touched (f := fun d => { d with
    children := d.children.filter (· ≠ n), source := d.source.filter (· ≠ n), proto := d.proto.filter (· ≠ n) })
    call ha hd (.modifyParents _ n _) (fun q m => ?_) (fun r hr => .inl ?_) (fun r hr => .inl (hr.imp hof hof))
    (fun r hr => by rw [ha.children_eq_nil hd (hof hr)]; rfl) rfl rfl ?_
  · rw [parentsOf_modifyParents, isSome_node?_modifyData, parentsOf_modifyData]
    change _ = _ + if q = p then ((d.children.filter (· ≠ n)) ++ (d.source.filter (· ≠ n)).toList ++
      (d.proto.filter (· ≠ n)).toList).count m else 0
    rw [hrefs]
    have hparents := ha.parents q m
    by_cases hm : m = n
    · subst hm
      by_cases hs : (g.node? m).isSome
      · rw [if_pos ⟨rfl, hs⟩]
        by_cases hq : q = p
        · subst hq
          have hzero : ((g.parentsOf m).filter (· ≠ q)).count q = 0 :=
            List.count_eq_zero_of_not_mem fun h => by simpa using (List.mem_filter.1 h).2
          rw [references_of_data? hd] at hparents
          simp only [if_true, hzero, hparents]
          omega
        · rw [List.count_filter (by simpa using hq)]
          simp [hq]
      · have hnone : g.parentsOf m = [] := by
          rw [parentsOf, Option.not_isSome_iff_eq_none.1 hs]
          rfl
        rw [if_neg fun h => hs h.2, hnone]
        rw [hnone, List.count_nil] at hparents
        by_cases hq : q = p
        · subst hq
          rw [references_of_data? hd] at hparents
          simp [← hparents]
        · simp [hq]
    · rw [if_neg fun h => hm h.1, if_neg hm]
  · have := hrefs r
    rw [← List.count_pos_iff]
    by_cases hrn : r = n
    · rw [if_pos hrn] at this
      exact absurd hr (List.count_eq_zero.1 this)
    · rw [if_neg hrn] at this
      rw [← this]
      exact List.count_pos_iff.2 hr
  · rcases hp : d.proto with _ | r
    · exact .inl (by simp)
    · by_cases hr : r = n
      · exact .inr (.inl (by simp [hr, Option.filter]))
      · exact .inl (by simp [hr, Option.filter])

end Data

theorem Revised.rewired (h : Revised call g g') : ∀ m, (g'.data? m).isSome = (g.data? m).isSome := by
  induction h with
  | done j _ => exact fun m => rfl
  | @change g g₁ g' p ht _ _ ih =>
    intro m
    rw [ih m, (rewired_structureChanged g₁ p).isSome_data?]
    by_cases hm : m = p
    · rw [hm]
      exact ht.isSome_data
    · rw [ht.data m hm]

theorem Revised.authored (h : Revised call g g') (ha : g.Authored) : g'.Authored := by
  induction h with
  | done j _ => exact ha.journal j
  | @change g g₁ g' p ht _ _ ih => exact ih ((rewired_structureChanged g₁ p).authored ht.authored)

theorem Revised.trans {g'' : Graph} (h : Revised call g g') (h' : Revised call g' g'') : Revised call g g'' := by
  induction h with
  | done j hs => exact h'.of_journal hs
  | change ht hs _ ih => exact .change ht hs (ih h')

theorem revised_detachFrom (ha : g.Authored) (call : Call) {d : DataNode} (hd : g.data? p = some d) :
    Revised call g (g.detachFrom n p) := (touched_detach ha call hd).revised (.refl _)

theorem revised_detachAll (call : Call) (n : NodeId) : ∀ (ps : List NodeId) (g : Graph), g.Authored →
    (∀ p ∈ ps, (g.data? p).isSome) → Revised call g (ps.foldl (fun g parent => g.detachFrom n parent) g)
  | [], g, _, _ => .refl call g
  | p :: ps, g, ha, hps => by
    obtain ⟨d, hd⟩ := Option.isSome_iff_exists.1 (hps p (List.mem_cons_self ..))
    have h := revised_detachFrom (n := n) ha call hd
    refine h.trans (revised_detachAll call n ps _ (h.authored ha) fun q hq => ?_)
    rw [h.rewired]
    exact hps q (List.mem_cons_of_mem _ hq)

/-- Whoever has a node as a child, source or template is a data node. -/
theorem Authored.data_of_parent (ha : g.Authored) (h : p ∈ g.parents n) : (g.data? p).isSome := by
  rw [Graph.parents, List.mem_eraseDups, ← List.count_pos_iff, ha.parents, List.count_pos_iff] at h
  obtain ⟨d, hd⟩ := exists_data_of_reference h
  rw [hd]
  rfl

theorem revised_detach (ha : g.Authored) (call : Call) : Revised call g (g.detachFromParents n).1 := by
  rw [detachFromParents]
  rcases g.node? n with _ | x
  · exact .refl _ g
  · exact revised_detachAll call n _ g ha fun p hp => ha.data_of_parent hp

/-! ## Taking a node away -/

/-- Nobody refers to a node from which all references were detached. -/
theorem references_detachFrom (g : Graph) (n p m : NodeId) :
    (g.detachFrom n p).references m = if m = p then (g.references m).filter (· ≠ n) else g.references m := by
  have hfilter : ∀ o : Option NodeId, (o.filter (· ≠ n)).toList = o.toList.filter (· ≠ n) := by
    rintro (_ | r)
    · rfl
    · by_cases hr : r = n <;> simp [Option.filter, hr]
  rw [detachFrom, (rewired_structureChanged _ p).references, references, references, data?_modifyParents, data?_modifyData]
  by_cases hm : m = p
  · rw [if_pos hm, if_pos hm]
    rcases g.data? m with _ | d
    · rfl
    · simp only [Option.map_some, Option.getD_some, DataNode.references, hfilter, List.filter_append]
  · rw [if_neg hm, if_neg hm]

theorem references_detachAll (n m : NodeId) : ∀ (ps : List NodeId) (g : Graph),
    (ps.foldl (fun g parent => g.detachFrom n parent) g).references m =
      if m ∈ ps then (g.references m).filter (· ≠ n) else g.references m
  | [], g => by simp
  | p :: ps, g => by
    rw [List.foldl_cons, references_detachAll n m ps, references_detachFrom]
    by_cases hm : m = p <;> by_cases hps : m ∈ ps <;> simp only [hm, hps, List.mem_cons, true_or, or_true, or_self, if_true, if_false]
    · rw [if_pos (hm ▸ hps), List.filter_filter]
      simp only [Bool.and_self]
    · rw [if_neg (hm ▸ hps)]

theorem not_mem_references_detach (ha : g.Authored) (hn : (g.node? n).isSome) (m : NodeId) :
    n ∉ (g.detachFromParents n).1.references m := by
  obtain ⟨x, hx⟩ := Option.isSome_iff_exists.1 hn
  simp only [detachFromParents, hx]
  rw [references_detachAll]
  split
  · simp
  · rename_i hm
    intro h
    refine hm ?_
    rw [Graph.parents, List.mem_eraseDups, ← List.count_pos_iff, ha.parents, List.count_pos_iff]
    exact h

/-- A graph without a node that nobody refers to stays authored. -/
theorem Authored.removed (ha : g.Authored) (hn : ∀ m, n ∉ g.references m)
    (hdata : ∀ m, (g'.design? m) = if m = n then none else g.design? m)
    (hnode : ∀ m, m ≠ n → (g'.node? m).isSome = (g.node? m).isSome)
    (hparents : ∀ q c, (g'.parentsOf c).count q =
      if c = n then 0 else (g.parentsOf c).count q - if q = n then (g.references n).count c else 0) : g'.Authored := by
  have hrefs : ∀ m, g'.references m = if m = n then [] else g.references m := by
    intro m
    rw [references_eq, references_eq, hdata]
    by_cases hm : m = n
    · rw [if_pos hm, if_pos hm]
      rfl
    · rw [if_neg hm, if_neg hm]
  have hne : ∀ {m r}, r ∈ g'.references m → r ∈ g.references m ∧ r ≠ n := by
    intro m r hr
    rw [hrefs] at hr
    split at hr
    · cases hr
    · exact ⟨hr, fun h => hn m (h ▸ hr)⟩
  refine ⟨fun m r hr => ?_, fun q c => ?_, fun m hm => ?_, fun m d hd r hr => ?_, fun m d hd => ?_⟩
  · obtain ⟨hr, hrn⟩ := hne hr
    rw [hnode r hrn]
    exact ha.live m r hr
  · rw [hparents, hrefs]
    by_cases hc : c = n
    · rw [if_pos hc, hc]
      split
      · rfl
      · exact (List.count_eq_zero.2 (hn q)).symm
    · rw [if_neg hc, ha.parents]
      by_cases hq : q = n
      · rw [if_pos hq, if_pos hq, hq]
        simp
      · rw [if_neg hq, if_neg hq]
        rfl
  · refine ha.acyclic m (hm.of_references fun _ _ hb => (hne hb).1)
  · rw [hdata] at hd
    split at hd
    · cases hd
    · have hrn : r ≠ n := by
        rintro rfl
        refine hn m ?_
        rw [references_eq, hd]
        rcases hr with hr | hr <;> simp [Design.references, hr]
      have := ha.dataRefs m d hd r hr
      have hsome : (g'.design? r).isSome = (g.design? r).isSome := by rw [hdata, if_neg hrn]
      simp only [design?, Option.isSome_map] at hsome
      rw [hsome]
      exact this
  · rw [hdata] at hd
    split at hd
    · cases hd
    · exact ha.single m d hd

/-- The graph from which a node that nobody refers to is taken. -/
def uproot (g : Graph) (n : NodeId) : Graph :=
  let g := (((g.references n).foldl (fun g child => g.unlink n child) g).resetWiring n).dropOutlets n
  { g with nodes := g.nodes.erase n }

theorem removeNode_eq (g : Graph) (n : NodeId) :
    (g.removeNode n).1 = if (g.node? n).isSome then (g.detachFromParents n).1.uproot n else g := by
  rw [removeNode, detachFromParents]
  rcases g.node? n with _ | x <;> rfl

theorem sameNodes_dropOutlets (g : Graph) (n : NodeId) : g.SameNodes (g.dropOutlets n) :=
  (sameNodes_staleStructure g n).trans ⟨rfl, rfl, rfl⟩

theorem authored_uproot (ha : g.Authored) (hn : ∀ m, n ∉ g.references m) : (g.uproot n).Authored := by
  have hnoted := Noted.unlinkAll n (g.references n) g
  have hw := ((derived_resetWiring ((g.references n).foldl (fun g child => g.unlink n child) g) n).rewired).chain
    Wiring.chains_forgets (sameNodes_dropOutlets _ n).rewired
  have hget : ∀ m, (g.uproot n).node? m = if m = n then none else
      ((((g.references n).foldl (fun g child => g.unlink n child) g).resetWiring n).dropOutlets n).node? m :=
    fun m => Arena.get?_erase _ n m
  refine ha.removed hn (fun m => ?_) (fun m hm => ?_) (fun q c => ?_)
  · by_cases hm : m = n
    · rw [if_pos hm, design?, data?, hget, if_pos hm]
      rfl
    · rw [if_neg hm, design?, data?, hget, if_neg hm]
      exact (hw.design? m).trans (by rw [design?, design?, hnoted.data])
  · rw [hget, if_neg hm, hw.isSome_node?, hnoted.node]
  · by_cases hc : c = n
    · rw [if_pos hc, parentsOf, hget, if_pos hc]
      rfl
    · rw [if_neg hc, parentsOf, hget, if_neg hc]
      exact (congrArg (List.count q) (hw.parentsOf c)).trans (count_parentsOf_unlinkAll n q _ g)

theorem authored_removeNode (ha : g.Authored) : (g.removeNode n).1.Authored := by
  rw [removeNode_eq]
  split
  · rename_i hn
    exact authored_uproot ((revised_detach ha (.remove n)).authored ha) (not_mem_references_detach ha hn)
  · exact ha

/-! ## Making a node -/

/-- A graph with a node more that refers to nothing stays authored. -/
theorem Authored.pushed (ha : g.Authored) {x : Node} (hx : x.parents = [])
    (hd : ∀ d, x.data? = some d → d.references = []) (h : g'.nodes = g.nodes.push x) : g'.Authored := by
  have hget : ∀ m, g'.node? m = if m = g.nodes.next then some x else g.node? m := by
    intro m
    rw [node?, h]
    exact Arena.get?_push ..
  have hold : g.node? g.nodes.next = none := g.nodes.get?_next
  have hnone : g.data? g.nodes.next = none := by rw [data?, hold]; rfl
  have hrefs : ∀ m, g'.references m = g.references m := by
    intro m
    by_cases hm : m = g.nodes.next
    · rw [references, references, hm, hnone, data?, hget, if_pos rfl, Option.bind_some]
      rcases hd' : x.data? with _ | d
      · rfl
      · exact hd d hd'
    · rw [references, references, data?, data?, hget, if_neg hm]
  have hdata : ∀ m, m ≠ g.nodes.next → g'.data? m = g.data? m := by
    intro m hm
    rw [data?, data?, hget, if_neg hm]
  have href : ∀ m d, g'.design? m = some d → (∃ r, r ∈ d.references) → m ≠ g.nodes.next := by
    rintro m d hd' ⟨r, hr⟩ rfl
    have hr' : r ∈ g'.references g.nodes.next := by
      rw [references_eq, hd']
      exact hr
    rw [hrefs, references, hnone] at hr'
    cases hr'
  refine ⟨fun m r hr => ?_, fun q c => ?_, fun m hm => ?_, fun m d hd' r hr => ?_, fun m d hd' r hr => ?_⟩
  · rw [hrefs] at hr
    rw [hget]
    split
    · rfl
    · exact ha.live m r hr
  · rw [hrefs, ← ha.parents, parentsOf, parentsOf, hget]
    split
    · rename_i hc
      rw [hc, hold]
      exact congrArg (List.count q) hx
    · rfl
  · exact ha.acyclic m (hm.of_references fun a b hb => by rw [hrefs] at hb; exact hb)
  · have hr' : r ∈ g'.references m := by
      rw [references_eq, hd']
      rcases hr with hr | hr <;> simp [Design.references, hr]
    rw [hrefs] at hr'
    have hm := href m d hd' ⟨r, by rcases hr with hr | hr <;> simp [Design.references, hr]⟩
    have hrn : r ≠ g.nodes.next := by
      rintro rfl
      have := ha.live m _ hr'
      rw [hold] at this
      cases this
    rw [hdata r hrn]
    rw [design?, hdata m hm] at hd'
    exact ha.dataRefs m d hd' r hr
  · rw [design?, hdata m (href m d hd' ⟨r, by simp [Design.references, hr]⟩)] at hd'
    exact ha.single m d hd' r hr

theorem authored_createLeaf (ha : g.Authored) : g.createLeaf.Authored :=
  ha.pushed rfl (fun _ h => by cases h) rfl

theorem authored_createData (ha : g.Authored) (isProto : Bool) : (g.createData isProto).Authored :=
  ha.pushed rfl (fun _ h => by cases h; rfl) rfl

end Graph

end Dataflow
