import Dataflow.Proofs.Authored
import Dataflow.Proofs.History
import Dataflow.Proofs.Notified
import Dataflow.Proofs.Reach

/-!
# Edits keep a graph authored

An edit changes what one node refers to, and the parents of what it did or does refer to with it. It is refused when it would put a
node below itself. So the references of every reachable graph lead to live nodes and close no cycle.
-/

namespace Dataflow

/-- What a call does to the leaf that it edits. -/
def Call.editLeaf : Call → Leaf → Leaf
  | .setName _ name, l => { l with name }
  | .setKey _ key, l => { l with key }
  | .setParam _ param, l => { l with param }
  | .setData _ entry, l => { l with entry }
  | _, l => l

namespace Graph

variable {g g' : Graph} {p c m n : NodeId}

/-! ## Searching below a node -/

/-- The search below a node finds all that is below it. -/
theorem Authored.mem_descendants (ha : g.Authored) (h : g.Below n m) : m ∈ g.descendants n := by
  refine reachable_complete (show [n] ⊆ n :: g.nodes.items.keys by simp) ?_ ?_ (List.mem_singleton_self n) h
  · intro i _ j hj
    have hlive := ha.live i j hj
    refine List.mem_cons_of_mem _ (Table.mem_keys.2 (Option.isSome_iff_exists.1 ?_))
    exact hlive
  · rw [List.length_cons, Std.ExtTreeMap.length_keys]
    exact Nat.le_refl _

/-- A reference that is accepted leads to a live node that the referring node is not below. -/
theorem Authored.of_checkReference (ha : g.Authored) (h : g.checkReference p c = .ok ()) : (g.node? c).isSome ∧ ¬ g.Below c p := by
  rw [checkReference] at h
  split at h
  · cases h
  · rename_i hc
    split at h
    · cases h
    · rename_i hcycle
      refine ⟨by simpa [Option.isNone_iff_eq_none, Option.isSome_iff_ne_none] using hc, fun hb => hcycle ?_⟩
      rw [closesCycle, List.contains_iff_mem]
      exact ha.mem_descendants hb

theorem Authored.of_checkData (ha : g.Authored) (h : g.checkData p c = .ok ()) : (g.data? c).isSome ∧ ¬ g.Below c p := by
  rw [checkData] at h
  by_cases hc : (g.data? c).isNone
  · rw [if_pos hc] at h
    cases h
  · rw [if_neg hc] at h
    refine ⟨by simpa [Option.isNone_iff_eq_none, Option.isSome_iff_ne_none] using hc, ?_⟩
    exact (ha.of_checkReference (by simpa [bind, Except.bind, pure, Except.pure] using h)).2

theorem Authored.of_checkChild (ha : g.Authored) (h : g.checkChild p c = .ok ()) : (g.node? c).isSome ∧ ¬ g.Below c p := by
  rw [checkChild] at h
  rcases hd : g.requireData p with e | d
  · rw [hd] at h
    cases h
  · rw [hd] at h
    by_cases hs : d.source.isSome
    · simp [bind, Except.bind, hs, throw, throwThe, MonadExceptOf.throw] at h
    · refine ha.of_checkReference ?_
      simpa [bind, Except.bind, hs, pure, Except.pure] using h

/-! ## Changing the references of a node -/

/-- When only the references of `p` change, and none leads to something that `p` is below, no cycle is closed. -/
theorem Authored.acyclic_of_edit (ha : g.Authored) (hrefs : ∀ m, m ≠ p → g'.references m = g.references m)
    (hnew : ∀ c ∈ g'.references p, ¬ g.Below c p) (n : NodeId) : ¬ g'.StrictlyBelow n n := by
  -- a walk to `p` need not pass `p` before
  have hback : ∀ {a}, g'.Below a p → g.Below a p := by
    intro a h
    induction h using Relation.ReflTransGen.head_induction_on with
    | refl => exact Leads.refl _
    | @head a b hab _ ih =>
      by_cases hap : a = p
      · subst hap
        exact Leads.refl _
      · rw [hrefs a hap] at hab
        exact Leads.head hab ih
  have hwalk : ∀ {a b}, g'.StrictlyBelow a b → g.StrictlyBelow a b ∨ ∃ c ∈ g'.references p, g'.Below a p ∧ g'.Below c b := by
    intro a b h
    induction h with
    | @single b hab =>
      by_cases hap : a = p
      · subst hap
        exact .inr ⟨b, hab, Leads.refl _, Leads.refl _⟩
      · rw [hrefs a hap] at hab
        exact .inl (.single hab)
    | @tail b c hab hbc ih =>
      by_cases hbp : b = p
      · subst hbp
        exact .inr ⟨c, hbc, hab.to_reflTransGen, Leads.refl _⟩
      · rcases ih with ih | ⟨d, hd, had, hdb⟩
        · rw [hrefs b hbp] at hbc
          exact .inl (ih.tail hbc)
        · exact .inr ⟨d, hd, had, hdb.tail hbc⟩
  intro h
  rcases hwalk h with h | ⟨c, hc, hnp, hcn⟩
  · exact ha.acyclic n h
  · exact hnew c hc (hback (hcn.trans hnp))

/-- `g'` is `g` with the data node `p` changed by `f`, of which all parents took note. -/
structure Edited (g g' : Graph) (p : NodeId) (f : DataNode → DataNode) : Prop where
  node : ∀ m, (g'.node? m).isSome = (g.node? m).isSome
  data : ∀ m, g'.data? m = if m = p then (g.data? m).map f else g.data? m
  parents : ∀ q c, (g'.parentsOf c).count q + (if q = p then (g.references p).count c else 0) =
    (g.parentsOf c).count q + if q = p then (g'.references p).count c else 0

variable {f : DataNode → DataNode}

theorem Edited.references_of_ne (h : g.Edited g' p f) (hm : m ≠ p) : g'.references m = g.references m := by
  rw [references, h.data, if_neg hm, references]

theorem Edited.references (h : g.Edited g' p f) {d : DataNode} (hd : g.data? p = some d) : g'.references p = (f d).references := by
  refine references_of_data? ?_
  rw [h.data, if_pos rfl, hd]
  rfl

/-- An edit keeps a graph authored when what the node refers to now is live, is not above it, and is a data node where it has to be. -/
theorem Edited.authored (h : g.Edited g' p f) (ha : g.Authored) {d : DataNode} (hd : g.data? p = some d)
    (hrefs : ∀ c ∈ (f d).references, c ∈ d.references ∨ ((g.node? c).isSome ∧ ¬ g.Below c p))
    (hdata : ∀ r, (f d).source = some r ∨ (f d).proto = some r →
      (d.source = some r ∨ d.proto = some r) ∨ (g.data? r).isSome)
    (hsingle : ∀ r, (f d).source = some r → (f d).children = []) : g'.Authored := by
  have hold := references_of_data? hd
  have hnew := h.references hd
  have hsome : ∀ m, (g'.data? m).isSome = (g.data? m).isSome := fun m => by
    rw [h.data]
    split <;> simp
  have hkeep : ∀ c ∈ g'.references p, (g.node? c).isSome ∧ ¬ g.Below c p := by
    intro c hc
    rw [hnew] at hc
    rcases hrefs c hc with hc | hc
    · rw [← hold] at hc
      exact ⟨ha.live p c hc, fun hb => ha.acyclic p (Relation.TransGen.head' hc hb)⟩
    · exact hc
  refine ⟨fun n r hr => ?_, fun q c => ?_, ha.acyclic_of_edit (fun m => h.references_of_ne) fun c hc => (hkeep c hc).2,
    fun n D hD r hr => ?_, fun n D hD r hr => ?_⟩
  · rw [h.node]
    by_cases hn : n = p
    · subst hn
      exact (hkeep r hr).1
    · rw [h.references_of_ne hn] at hr
      exact ha.live n r hr
  · have hp := h.parents q c
    rw [ha.parents q c] at hp
    by_cases hq : q = p
    · subst hq
      rw [if_pos rfl, if_pos rfl] at hp
      omega
    · rw [if_neg hq, if_neg hq, Nat.add_zero, Nat.add_zero] at hp
      rw [hp, h.references_of_ne hq]
  · rw [hsome]
    rw [design?, h.data] at hD
    by_cases hn : n = p
    · subst hn
      rw [if_pos rfl, hd] at hD
      obtain rfl : (f d).design = D := Option.some.inj hD
      rcases hdata r hr with hr | hr
      · exact ha.dataRefs n d.design (design?_of_data? hd) r hr
      · exact hr
    · rw [if_neg hn] at hD
      exact ha.dataRefs n D hD r hr
  · rw [design?, h.data] at hD
    by_cases hn : n = p
    · subst hn
      rw [if_pos rfl, hd] at hD
      obtain rfl : (f d).design = D := Option.some.inj hD
      exact hsingle r hr
    · rw [if_neg hn] at hD
      exact ha.single n D hD r hr

/-! ## Taking note of a reference -/

theorem count_parentsOf_link (h : (g.node? c).isSome) (q : NodeId) :
    ((g.link p c).parentsOf m).count q = (g.parentsOf m).count q + if m = c ∧ q = p then 1 else 0 := by
  rw [link, parentsOf_modifyParents]
  by_cases hm : m = c
  · subst hm
    rw [if_pos ⟨rfl, h⟩, List.count_append, List.count_singleton]
    by_cases hq : q = p
    · simp [hq]
    · simp [hq, Ne.symm hq]
  · rw [if_neg fun h => hm h.1, if_neg fun h => hm h.1, Nat.add_zero]

theorem count_parentsOf_unlink (q : NodeId) :
    ((g.unlink p c).parentsOf m).count q = (g.parentsOf m).count q - if m = c ∧ q = p then 1 else 0 := by
  rw [unlink, parentsOf_modifyParents]
  by_cases hm : m = c
  · subst hm
    by_cases hs : (g.node? m).isSome
    · rw [if_pos ⟨rfl, hs⟩, List.count_erase]
      by_cases hq : q = p
      · simp [hq]
      · simp [hq, Ne.symm hq]
    · have hnone : g.parentsOf m = [] := by
        rw [parentsOf, Option.not_isSome_iff_eq_none.1 hs]
        rfl
      rw [if_neg fun h => hs h.2, hnone, List.count_nil, Nat.zero_sub]
  · rw [if_neg fun h => hm h.1, if_neg fun h => hm h.1, Nat.sub_zero]

theorem edited_modifyData (g : Graph) (p : NodeId) {f : DataNode → DataNode} (hf : ∀ d, (f d).references = d.references) :
    g.Edited (g.modifyData p f) p f := by
  refine ⟨fun m => isSome_node?_modifyData .., fun m => data?_modifyData .., fun q c => ?_⟩
  rw [parentsOf_modifyData]
  by_cases hq : q = p
  · rw [if_pos hq, if_pos hq, references, references, data?_modifyData, if_pos rfl]
    rcases g.data? p with _ | d
    · rfl
    · rw [Option.map_some, Option.map_some, Option.map_some, hf]
  · rw [if_neg hq, if_neg hq]

/-! ## Edits, and telling of them -/

/-- `g'` is `g` after the edit of one node by a call, before anyone is told: only the node's own place in the graph changed, and the
parents of those that it refers to. -/
structure Touched (call : Call) (g g' : Graph) (p : NodeId) : Prop where
  rest : ∃ nodes journal, g' = { g with nodes, journal }
  node : ∀ m, (g'.node? m).isSome = (g.node? m).isSome
  size : g'.nodes.size = g.nodes.size
  next : g'.nodes.next = g.nodes.next
  data : ∀ m, m ≠ p → g'.data? m = g.data? m
  leaf : ∀ m, m ≠ p → g'.leaf? m = g.leaf? m
  leafAt : g'.leaf? p = (g.leaf? p).map call.editLeaf
  dataAt : ∀ d', g'.data? p = some d' → ∃ d, g.data? p = some d ∧ d'.wiring = d.wiring ∧ d'.outlets = d.outlets ∧
    (d'.proto = d.proto ∨ d'.proto = none ∨ call = .setProto p d'.proto)
  isSome_data : (g'.data? p).isSome = (g.data? p).isSome
  authored : g'.Authored

/-- An edit of a data node touches it. -/
theorem Edited.touched {call : Call} {d : DataNode} (h : g.Edited g' p f) (hd : g.data? p = some d) (ha : g'.Authored)
    (hrest : ∃ nodes journal, g' = { g with nodes, journal }) (hsize : g'.nodes.size = g.nodes.size)
    (hnext : g'.nodes.next = g.nodes.next) (hleaf : ∀ m, g'.leaf? m = g.leaf? m) (hw : (f d).wiring = d.wiring)
    (ho : (f d).outlets = d.outlets) (hp : (f d).proto = d.proto ∨ (f d).proto = none ∨ call = .setProto p (f d).proto) :
    Touched call g g' p := by
  have hnone : g.leaf? p = none := leaf?_eq_none_of_data? hd
  refine ⟨hrest, h.node, hsize, hnext, fun m hm => by rw [h.data, if_neg hm], fun m _ => hleaf m, ?_, fun d' hd' => ?_, ?_, ha⟩
  · rw [hleaf, hnone]
    rfl
  · rw [h.data, if_pos rfl, hd] at hd'
    obtain rfl := Option.some.inj hd'
    exact ⟨d, hd, hw, ho, hp⟩
  · rw [h.data, if_pos rfl, Option.isSome_map]

theorem size_modifyData (g : Graph) (n : NodeId) (f : DataNode → DataNode) : (g.modifyData n f).nodes.size = g.nodes.size :=
  Std.ExtTreeMap.size_modify

theorem size_modifyParents (g : Graph) (n : NodeId) (f : List NodeId → List NodeId) :
    (g.modifyParents n f).nodes.size = g.nodes.size := Std.ExtTreeMap.size_modify

theorem data?_of_requireData {d : DataNode} (h : g.requireData p = .ok d) : g.data? p = some d := by
  rw [requireData] at h
  rw [data?]
  rcases hn : g.node? p with _ | x
  · rw [hn] at h
    cases h
  · rw [hn] at h
    dsimp only at h
    rw [Option.bind_some]
    rcases hx : x.data? with _ | d'
    · rw [hx] at h
      cases h
    · rw [hx] at h
      cases h
      rfl

/-- Other parents only. -/
structure Noted (g g' : Graph) : Prop where
  rest : ∃ nodes, g' = { g with nodes }
  node : ∀ m, (g'.node? m).isSome = (g.node? m).isSome
  size : g'.nodes.size = g.nodes.size
  next : g'.nodes.next = g.nodes.next
  data : ∀ m, g'.data? m = g.data? m
  leaf : ∀ m, g'.leaf? m = g.leaf? m

namespace Noted

theorem refl (g : Graph) : g.Noted g := ⟨⟨_, rfl⟩, fun _ => rfl, rfl, rfl, fun _ => rfl, fun _ => rfl⟩

theorem trans {g g' g'' : Graph} (h : g.Noted g') (h' : g'.Noted g'') : g.Noted g'' := by
  refine ⟨?_, fun m => (h'.node m).trans (h.node m), h'.size.trans h.size, h'.next.trans h.next, fun m => (h'.data m).trans (h.data m),
    fun m => (h'.leaf m).trans (h.leaf m)⟩
  obtain ⟨_, rfl⟩ := h.rest
  obtain ⟨_, rfl⟩ := h'.rest
  exact ⟨_, rfl⟩

theorem modifyParents (g : Graph) (n : NodeId) (f : List NodeId → List NodeId) : g.Noted (g.modifyParents n f) :=
  ⟨⟨_, rfl⟩, fun _ => isSome_node?_modifyParents .., size_modifyParents .., rfl, fun _ => data?_modifyParents ..,
    fun _ => leaf?_modifyParents ..⟩

theorem unlinkAll (p : NodeId) : ∀ (l : List NodeId) (g : Graph), g.Noted (l.foldl (fun g c => g.unlink p c) g)
  | [], g => refl g
  | c :: l, g => (modifyParents g c _).trans (unlinkAll p l _)

end Noted

theorem count_parentsOf_unlinkAll (p q : NodeId) : ∀ (l : List NodeId) (g : Graph),
    ((l.foldl (fun g c => g.unlink p c) g).parentsOf m).count q = (g.parentsOf m).count q - if q = p then l.count m else 0
  | [], g => by simp
  | c :: l, g => by
    rw [List.foldl_cons, count_parentsOf_unlinkAll p q l, count_parentsOf_unlink, List.count_cons]
    by_cases hq : q = p <;> by_cases hm : m = c
    · simp only [hq, hm, and_self, if_true, beq_self_eq_true]
      omega
    · simp [hq, hm, Ne.symm hm]
    · simp [hq]
    · simp [hq]

/-- A data node is changed and its references are taken note of. -/
theorem Noted.edited {d : DataNode} (hd : g.data? p = some d) (h : (g.modifyData p f).Noted g')
    (hcount : ∀ q c, (g'.parentsOf c).count q + (if q = p then d.references.count c else 0) =
      (g.parentsOf c).count q + if q = p then (f d).references.count c else 0) : g.Edited g' p f := by
  have hdata : ∀ m, g'.data? m = if m = p then (g.data? m).map f else g.data? m := fun m => by
    rw [h.data, data?_modifyData]
  refine ⟨fun m => by rw [h.node, isSome_node?_modifyData], hdata, fun q c => ?_⟩
  have hnew : g'.references p = (f d).references := references_of_data? (by rw [hdata, if_pos rfl, hd]; rfl)
  rw [references_of_data? hd, hnew]
  exact hcount q c

/-- The edit of a data node that changes its references by some count, of which its parents take note, and is told. -/
theorem Noted.touched (call : Call) {d : DataNode} (ha : g.Authored) (hd : g.data? p = some d) (h : (g.modifyData p f).Noted g')
    (hcount : ∀ q c, (g'.parentsOf c).count q + (if q = p then d.references.count c else 0) =
      (g.parentsOf c).count q + if q = p then (f d).references.count c else 0)
    (hrefs : ∀ c ∈ (f d).references, c ∈ d.references ∨ ((g.node? c).isSome ∧ ¬ g.Below c p))
    (hdata : ∀ r, (f d).source = some r ∨ (f d).proto = some r →
      (d.source = some r ∨ d.proto = some r) ∨ (g.data? r).isSome)
    (hsingle : ∀ r, (f d).source = some r → (f d).children = [])
    (hw : (f d).wiring = d.wiring) (ho : (f d).outlets = d.outlets)
    (hp : (f d).proto = d.proto ∨ (f d).proto = none ∨ call = .setProto p (f d).proto) : Touched call g g' p := by
  have he := h.edited hd hcount
  refine he.touched hd (he.authored ha hd hrefs hdata hsingle) ?_ (h.size.trans (size_modifyData ..)) h.next
    (fun m => (h.leaf m).trans (leaf?_modifyData ..)) hw ho hp
  obtain ⟨_, rfl⟩ := h.rest
  exact ⟨_, _, rfl⟩

end Graph

end Dataflow
