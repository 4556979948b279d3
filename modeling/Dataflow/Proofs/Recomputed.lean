import Dataflow.Proofs.Alike
import Dataflow.Proofs.Tended

/-!
# What graphs that are authored alike compute

In a current graph a process that ran holds what its operator makes of what it reads. When kernels write everything anew, that is told by
what is authored, so graphs that are authored alike compute and publish the same, as far as the processes that publishing waits for ran.
-/

namespace Dataflow

/-- Where nothing is dropped, filtering is mapping. -/
theorem map_some_filterMap {α β : Type} {f : α → Option β} {l : List α} (h : ∀ a ∈ l, (f a).isSome) : (l.filterMap f).map some = l.map f := by
  induction l with
  | nil => rfl
  | cons a l ih =>
    obtain ⟨b, hb⟩ := Option.isSome_iff_exists.1 (h a (List.mem_cons_self ..))
    rw [List.filterMap_cons, hb, List.map_cons, List.map_cons, hb, ih fun a ha => h a (List.mem_cons_of_mem _ ha)]

/-- Two entries of the same type and payload are the same. -/
theorem entry_eq_of {o o' : Option Entry} (htype : o'.map (·.type) = o.map (·.type)) (hpayload : o'.map (·.payload) = o.map (·.payload)) :
    o' = o := by
  rcases o with _ | ⟨t, p, h⟩ <;> rcases o' with _ | ⟨t', p', h'⟩ <;> simp_all

namespace Graph

variable {φ : NodeId → NodeId} {hands hands' : List InstanceId} {g g' : Graph} {A A' : ProcessId → Prop} {id : OutletId}

/-- A process works for an outlet when it writes what the outlet publishes, or what another one that works for it waits for. -/
inductive WorksFor (g : Graph) (id : OutletId) : ProcessId → Prop where
  | writes {o : Outlet} {x : String} {c : ChannelId} {j : ProcessId} (ho : g.outlets[id]? = some o) (hc : o.channels[x]? = some c)
      (hj : j ∈ g.store.creators c) : WorksFor g id j
  | awaited {j k : ProcessId} {p : Process} (hj : WorksFor g id j) (hp : g.processes[j]? = some p) (hk : k ∈ p.children) : WorksFor g id k

/-- The processes of `A` ran, and they wait for none but those. -/
structure Finished (A : ProcessId → Prop) (g : Graph) : Prop where
  ran : ∀ (j : ProcessId) (p : Process), A j → g.processes[j]? = some p → p.state = .processed
  closed : ∀ (j : ProcessId) (p : Process), A j → g.processes[j]? = some p → ∀ k ∈ p.children, A k

theorem finished_worksFor (h : ∀ (j : ProcessId) (p : Process), g.WorksFor id j → g.processes[j]? = some p → p.state = .processed) :
    Finished (g.WorksFor id) g :=
  ⟨h, fun _ _ hj hp _ hk => hj.awaited hp hk⟩

/-- The payload of an output of a process. -/
theorem SoundBut.getElem?_outputPayloads (h : SoundBut (fun _ => False) hands g) {j : ProcessId} {p : Process} (hp : g.processes[j]? = some p)
    {k : Nat} {x : String} {e : EntryId} (he : p.outputs[k]? = some (x, e)) :
    (g.outputPayloads p)[k]? = (g.entryAt? e).map (·.payload) := by
  have hall := map_some_filterMap (f := fun o : String × EntryId => (g.entryAt? o.2).map (·.payload)) (l := p.outputs) fun o ho => by
    rw [Option.isSome_map]
    exact (h.fits hp).2 o ho
  have hk := congrArg (fun l : List (Option Payload) => l[k]?) hall
  simp only [List.getElem?_map, he, Option.map_some] at hk
  obtain ⟨v, hv, hve⟩ := Option.map_eq_some_iff.1 hk
  exact hv.trans hve

namespace Alike

variable (ha : Alike φ g g') (h : SoundBut (fun _ => False) hands g) (h' : SoundBut (fun _ => False) hands' g')
  (hreg : g'.registry = g.registry) (htol : g'.store.tolerance = g.store.tolerance)

include ha h h' hreg

/-- Counterparts hold the same, if the processes that write them do. -/
theorem entryAt {a a' : EntryId × Option ProcessId} (hc : Counterpart φ g g' a a')
    (hsame : ∀ (j j' : ProcessId) (p p' : Process), a.2 = some j → a'.2 = some j' → g.processes[j]? = some p → g'.processes[j']? = some p' →
      p'.owner = φ p.owner → g'.outputPayloads p' = g.outputPayloads p) : g'.entryAt? a'.1 = g.entryAt? a.1 := by
  have htype := ha.typeAt h h' hreg hc
  cases hc with
  | authored he => exact he
  | computed hp hp' ho he he' =>
    refine entry_eq_of htype ?_
    rw [← h.getElem?_outputPayloads hp he, ← h'.getElem?_outputPayloads hp' he', hsame _ _ _ _ rfl rfl hp hp' ho]

include htol

/-- Processes of a node and of its counterpart that ran, after all that they wait for, hold the same. -/
theorem outputPayloads (hc : g.Current) (hc' : g'.Current) (hk : ∀ name op, g.registry.get? name = some op → op.Overwrites)
    (hA : Finished A g) (hA' : Finished A' g') {j j' : ProcessId} {p p' : Process} (hj : A j) (hj' : A' j') (hp : g.processes[j]? = some p)
    (hp' : g'.processes[j']? = some p') (ho : p'.owner = φ p.owner) : g'.outputPayloads p' = g.outputPayloads p := by
  induction j using Nat.strongRecOn generalizing j' p p' with
  | ind j ih =>
    obtain ⟨k, i, co, hi, hown, hop, hr⟩ := h.run hp not_false
    obtain ⟨k', i', co', hi', hown', hop', hr'⟩ := h'.run hp' not_false
    have hplace : i'.owner = φ i.owner := by rw [← hown', ho, hown]
    obtain ⟨hoper, -⟩ := ha.process h h' hreg hp hp' ho
    have hin := (h.faithful k i hi not_false).inSync
    have hsame := ha.operation h h' hreg hin (hplace ▸ (h'.faithful k' i' hi' not_false).inSync)
    obtain rfl : co' = co := by
      rw [hplace, hsame, hop] at hop'
      exact (Prod.mk.inj (Option.some.inj hop')).1.symm
    -- what both read matches, and holds the same
    have hviews : g'.viewsOf p' = g.viewsOf p := by
      refine viewsOf_eq hoper htol ?_
      rw [hr.inputs, hr'.inputs, hoper, List.forall₂_map_left_iff, List.forall₂_map_right_iff, hplace]
      refine forall₂_self fun x hx => ?_
      have hlinked := ha.linked h h' hreg htol hi hi' hplace .input x
      have hread : ∀ c, g.chan i.owner .input x .empty = some c → some c ∈ p.inputs := fun c hc => by
        rw [hr.inputs, ← hc]
        exact List.mem_map_of_mem hx
      have hread' : ∀ c, g'.chan (φ i.owner) .input x .empty = some c → some c ∈ p'.inputs := fun c hc => by
        rw [hr'.inputs, ← hc, hplace, hoper]
        exact List.mem_map_of_mem hx
      generalize g.chan i.owner .input x .empty = o at hlinked hread
      generalize g'.chan (φ i.owner) .input x .empty = o' at hlinked hread'
      cases hlinked with
      | none => exact .none
      | @some c c' hl =>
        obtain ⟨-, -, hslots⟩ := h.reads hp not_false (hread c rfl)
        obtain ⟨-, -, hslots'⟩ := h'.reads hp' not_false (hread' c' rfl)
        refine .some (forall₂_of_mem_both hl.slots fun y hy y' hy' hyy => ⟨hyy.key, ?_, h.not_written hp (hread c rfl) hy,
          h'.not_written hp' (hread' c' rfl) hy'⟩)
        refine congrArg (fun o : Option Entry => o.map (·.payload)) (ha.entryAt h h' hreg hyy.origin fun m m' q q' hm hm' hq hq' hqo => ?_)
        have hchild := (hslots y hy).2 m hm
        exact ih m ((h.process j p hp not_false).children m hchild).1 (hA.closed j p hj hp m hchild)
          (hA'.closed j' p' hj' hp' m' ((hslots' y' hy').2 m' hm')) hq hq' hqo
    obtain ⟨olds, hfit, hout⟩ := hc.computed j p hp (hA.ran j p hj hp)
    obtain ⟨olds', hfit', hout'⟩ := hc'.computed j' p' hp' (hA'.ran j' p' hj' hp')
    rw [hviews, hoper] at hout'
    rw [hoper] at hfit'
    have hover : p.operator.Overwrites := by
      obtain ⟨d, hd⟩ := hin.exists_design
      rw [h.operation_eq hin hd] at hop
      obtain ⟨co, -, hop⟩ := Option.bind_eq_some_iff.1 hop
      obtain ⟨op, hget, he⟩ := Option.map_eq_some_iff.1 hop
      rw [← (Prod.mk.inj he).2]
      exact hk _ _ hget
    rw [hover _ olds olds' hfit hfit', hout'] at hout
    exact Except.ok.inj hout

/-- Outlets of a node and of its counterpart, for the same names, publish the same names, and under each of them the same as far as the
processes that work for them ran. -/
theorem published (hc : g.Current) (hc' : g'.Current) (hk : ∀ name op, g.registry.get? name = some op → op.Overwrites) {id' : OutletId}
    {o o' : Outlet} (ho : g.outlets[id]? = some o) (ho' : g'.outlets[id']? = some o') (hat : g.OutletAt id o) (hat' : g'.OutletAt id' o')
    (hs : o.status ≠ .needsStructure) (hs' : o'.status ≠ .needsStructure) (hown : o'.owner = φ o.owner) (hfilter : o'.filter = o.filter)
    (x : String) :
    Option.Rel (fun e e' => Finished (g.WorksFor id) g → Finished (g'.WorksFor id') g' → g'.entryAt? e' = g.entryAt? e)
      (g.published o.channels)[x]? (g'.published o'.channels)[x]? := by
  obtain ⟨j, -, ⟨i, hi, hio, -⟩, hx⟩ := hat.held hs
  obtain ⟨j', -, ⟨i', hi', hio', -⟩, hx'⟩ := hat'.held hs'
  have hlinked := ha.linked h h' hreg htol hi hi' (hio'.trans (hown.trans (congrArg φ hio.symm))) .output x
  have hch := hx x
  have hch' := hx' x
  rw [hfilter, hown] at hch'
  rw [hio] at hlinked
  rw [Graph.published, Graph.published, Std.ExtTreeMap.getElem?_filterMap', Std.ExtTreeMap.getElem?_filterMap']
  split at hch
  · rw [if_pos ‹_›] at hch'
    rw [← hch, ← hch'] at hlinked
    generalize hoc : o.channels[x]? = a at hlinked ⊢
    generalize hoc' : o'.channels[x]? = a' at hlinked ⊢
    cases hlinked with
    | none => exact .none
    | @some c c' hl =>
      rw [Option.bind_some, Option.bind_some, Store.firstId?, Store.firstId?]
      have hmem : ∀ y ∈ g.store.slots c, ∀ k, y.creator = some k → g.WorksFor id k := fun y hy k hk =>
        .writes ho hoc (List.mem_filterMap.2 ⟨y, hy, hk⟩)
      have hmem' : ∀ y ∈ g'.store.slots c', ∀ k, y.creator = some k → g'.WorksFor id' k := fun y hy k hk =>
        .writes ho' hoc' (List.mem_filterMap.2 ⟨y, hy, hk⟩)
      have hslots := hl.slots
      generalize g.store.slots c = l at hslots hmem
      generalize g'.store.slots c' = l' at hslots hmem'
      cases hslots with
      | nil => exact .none
      | cons hy _ =>
        refine .some fun hf hf' => ha.entryAt h h' hreg hy.origin fun k k' p p' hk₁ hk₁' hp hp' hpo => ?_
        exact ha.outputPayloads h h' hreg htol hc hc' hk hf hf' (hmem _ (List.mem_cons_self ..) k hk₁)
          (hmem' _ (List.mem_cons_self ..) k' hk₁') hp hp' hpo
  · rw [if_neg ‹_›] at hch'
    rw [hch, hch']
    exact .none

end Alike

end Graph

end Dataflow
