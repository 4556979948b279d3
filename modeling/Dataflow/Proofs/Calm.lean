import Dataflow.Proofs.Tended

/-!
# Changes that leave what is derived as it is

Running processes, editing values, and opening outlets and requests change values, the states of processes and what outlets note. No
instance, process or channel comes or goes, so a tended graph stays tended.
-/

namespace Dataflow

/-- The process, as if it had not run. -/
def Process.unrun (p : Process) : Process := { p with state := .unprocessed }

/-- The outlet is the same but for its result and its requests, and it is as much up to date with the structure. -/
structure Outlet.Like (o o' : Outlet) : Prop where
  owner : o'.owner = o.owner
  filter : o'.filter = o.filter
  held : o'.held = o.held
  channels : o'.channels = o.channels
  status : o'.status = .needsStructure ↔ o.status = .needsStructure

namespace Outlet.Like

theorem refl (o : Outlet) : o.Like o := ⟨rfl, rfl, rfl, rfl, Iff.rfl⟩

theorem trans {o o' o'' : Outlet} (h : o.Like o') (h' : o'.Like o'') : o.Like o'' :=
  ⟨h'.owner.trans h.owner, h'.filter.trans h.filter, h'.held.trans h.held, h'.channels.trans h.channels, h'.status.trans h.status⟩

theorem idle {o o' : Outlet} (h : o.Like o') (ho : o.Idle) : o'.Idle :=
  ⟨h.held.trans ho.held, h.channels.trans ho.channels, h.status.2 ho.status⟩

end Outlet.Like

theorem optionRel_self {α : Type} {R : α → α → Prop} (h : ∀ a, R a a) : ∀ o : Option α, Option.Rel R o o
  | none => .none
  | some a => .some (h a)

namespace Graph

variable {hands : List InstanceId} {g g' g'' : Graph} {n : NodeId}

/-- A graph in which no node is concerned by a change stays sound. -/
theorem SoundBut.calm (h : SoundBut (fun _ => False) hands g) (hsp : Spares (fun _ => False) g g') (hinst : g'.instances = g.instances)
    (hm : g'.store.Mirrored) : SoundBut (fun _ => False) hands g' := by
  have hdesign : ∀ m, g'.design? m = g.design? m := fun m => hsp.design not_false
  have hrefs : ∀ m, g'.references m = g.references m := fun m => hsp.references not_false
  have hnode : ∀ m, (g.node? m).isSome → (g'.node? m).isSome := by
    intro m hs
    rcases hl : g.leaf? m with _ | l
    · obtain ⟨d, hd⟩ := exists_data_of_leaf?_eq_none hs hl
      obtain ⟨d', hd', -⟩ := exists_data_of_inner? ((hsp.data m not_false).trans (inner?_of_data? hd))
      exact isSome_node?_of_data? (by rw [hd']; rfl)
    · have hl' := (hsp.leaf m not_false).trans hl
      rw [leaf?] at hl'
      obtain ⟨x, hx, -⟩ := Option.bind_eq_some_iff.1 hl'
      rw [hx]
      rfl
  refine h.spared hsp ⟨fun m r hr => hnode r (h.founded.live m r (hrefs m ▸ hr)), fun m hb => h.founded.acyclic m
    (hb.of_references fun k r hr => hrefs k ▸ hr), fun m d hd => h.founded.single m d (hdesign m ▸ hd)⟩
    (fun m d hd => h.plain m d (hdesign m ▸ hd)) (fun _ _ _ hD => hD.elim) (fun m l e hl he => ?_) hm fun id i hi _ => ?_
  · obtain ⟨ht, hc⟩ := h.leaves m l e ((hsp.leaf m not_false).symm.trans hl) he
    obtain ⟨t, ht⟩ := Option.isSome_iff_exists.1 ht
    refine ⟨by rw [hsp.types e t ht fun _ _ _ hD => hD.elim]; rfl, fun id p hp => ?_⟩
    obtain ⟨u, st, hu⟩ := hsp.processesOf id p hp
    exact hc id { p with uses := u, state := st } hu
  · rw [hinst] at hi
    rw [useCount, hinst]
    exact h.uses id i hi not_false

/-- A tended graph stays tended when nothing derived changes, and every outlet is like one that was there, or idle. -/
theorem Tended.calm (h : g.Tended) (hsp : Spares (fun _ => False) g g') (hinst : g'.instances = g.instances) (hm : g'.store.Mirrored)
    (ha : g'.Authored) (he : g'.Enrolled)
    (hout : ∀ (id : OutletId) (o' : Outlet), g'.outlets[id]? = some o' → (o'.Idle ∧ g.outlets[id]? = none) ∨
      ∃ o : Outlet, g.outlets[id]? = some o ∧ o.Like o')
    (hkeep : ∀ (id : OutletId) (o : Outlet), g.outlets[id]? = some o → (g'.outlets[id]?).isSome)
    (hl : ∀ c (id : OutletId), .outlet id ∈ g.store.listenersOf c → .outlet id ∈ g'.store.listenersOf c) : g'.Tended := by
  refine ⟨ha, { h.sound.calm hsp hinst hm with uses := fun id i hi hD => ?_ }, he, fun id o' ho' => ?_⟩
  · rw [count_held_congr fun k => ?_]
    · exact (h.sound.calm hsp hinst hm).uses id i hi hD
    · rcases hk' : g'.outlets[k]? with _ | o' <;> rcases hk : g.outlets[k]? with _ | o
      · exact Iff.rfl
      · have := hkeep k o hk
        rw [hk'] at this
        cases this
      · rcases hout k o' hk' with ⟨hi, -⟩ | ⟨o, ho, -⟩
        · rw [Option.bind_some, hi.held, Option.bind_none]
        · rw [hk] at ho
          cases ho
      · rcases hout k o' hk' with ⟨-, hn⟩ | ⟨e, ho, hlike⟩
        · rw [hk] at hn
          cases hn
        · rw [hk] at ho
          cases ho
          rw [Option.bind_some, hlike.held, Option.bind_some]
  · rcases hout id o' ho' with ⟨hi, -⟩ | ⟨o, ho, hlike⟩
    · exact .of_idle hi
    · refine (h.outlet id o ho).keep hlike.owner hlike.filter hlike.held hlike.channels hlike.status (fun j _ hs => ?_) fun x c _ => hl c id
      obtain ⟨i, hi, hown, hsub⟩ := hs
      exact ⟨⟨i, hinst ▸ hi, hown, by rw [params, hsp.wiring not_false]; exact hsub⟩, fun x => hsp.chan not_false .output x .empty⟩

/-! ## Values -/

/-- The change is one of values, of the states of processes, and of what outlets and requests note. -/
structure Revalued (g g' : Graph) : Prop where
  rest : ∃ entries processes outlets requests plans journal,
    g' = { g with store := { g.store with entries }, processes, outlets, requests, plans, journal }
  types : ∀ e t, g.store.typeAt? e = some t → g'.store.typeAt? e = some t
  mirrored : g.store.Mirrored → g'.store.Mirrored
  processes : ∀ id : ProcessId, (g'.processes[id]?).map Process.unrun = (g.processes[id]?).map Process.unrun

namespace Revalued

theorem refl (g : Graph) : g.Revalued g := ⟨⟨_, _, _, _, _, _, rfl⟩, fun _ _ h => h, id, fun _ => rfl⟩

theorem trans (h : g.Revalued g') (h' : g'.Revalued g'') : g.Revalued g'' := by
  obtain ⟨⟨_, _, _, _, _, _, rfl⟩, ht, hm, hp⟩ := h
  obtain ⟨⟨_, _, _, _, _, _, rfl⟩, ht', hm', hp'⟩ := h'
  exact ⟨⟨_, _, _, _, _, _, rfl⟩, fun e t he => ht' e t (ht e t he), fun h => hm' (hm h), fun id => (hp' id).trans (hp id)⟩

theorem foldl {α : Type} {f : Graph → α → Graph} (hf : ∀ (g : Graph) a, g.Revalued (f g a)) :
    ∀ (l : List α) (g : Graph), g.Revalued (l.foldl f g)
  | [], g => refl g
  | a :: l, g => (hf g a).trans (foldl hf l (f g a))

section Parts

variable (h : g.Revalued g')

include h

theorem nodes : g'.nodes = g.nodes := by
  obtain ⟨_, _, _, _, _, _, rfl⟩ := h.rest
  rfl

theorem instances : g'.instances = g.instances := by
  obtain ⟨_, _, _, _, _, _, rfl⟩ := h.rest
  rfl

theorem channels : g'.store.channels = g.store.channels := by
  obtain ⟨_, _, _, _, _, _, rfl⟩ := h.rest
  rfl

theorem lastId : g'.lastId = g.lastId := by
  obtain ⟨_, _, _, _, _, _, rfl⟩ := h.rest
  rfl

theorem processes_to {id : ProcessId} {p : Process} (hp : g.processes[id]? = some p) : ∃ st, g'.processes[id]? = some { p with state := st } := by
  have := h.processes id
  rw [hp] at this
  obtain ⟨p', hp', he⟩ := Option.map_eq_some_iff.1 this
  refine ⟨p'.state, hp'.trans (congrArg some ?_)⟩
  exact congrArg (fun q : Process => { q with state := p'.state }) he

theorem processes_of {id : ProcessId} {p : Process} (hp : g'.processes[id]? = some p) : ∃ st, g.processes[id]? = some { p with state := st } := by
  have := h.processes id
  rw [hp] at this
  obtain ⟨p', hp', he⟩ := Option.map_eq_some_iff.1 this.symm
  refine ⟨p'.state, hp'.trans (congrArg some ?_)⟩
  exact congrArg (fun q : Process => { q with state := p'.state }) he

/-- Nothing derived changes but the states of processes. -/
theorem spares : Spares (fun _ => False) g g' := by
  have hto := fun {i : ProcessId} {p : Process} => @processes_to _ _ h i p
  have hof := fun {i : ProcessId} {p : Process} => @processes_of _ _ h i p
  have ht := h.types
  obtain ⟨_, _, _, _, _, _, rfl⟩ := h.rest
  exact { Spares.refl _ g with
    processes := fun id p hp _ => hto hp
    processesOf := fun id p hp => by
      obtain ⟨st, hst⟩ := hof hp
      exact ⟨p.uses, st, hst⟩
    types := fun e t he _ => ht e t he }

end Parts

theorem soundBut (h : g.Revalued g') (hs : SoundBut (fun _ => False) hands g) : SoundBut (fun _ => False) hands g' :=
  hs.calm h.spares h.instances (h.mirrored hs.mirrored)

theorem authored (h : g.Revalued g') (ha : g.Authored) : g'.Authored :=
  Rewired.authored (P := fun _ _ _ => True) (.of_nodes_eq h.nodes) ha

/-- A change of values keeps a graph tended when its outlets stay alike and its requests stay theirs. -/
theorem tended (h : g.Revalued g') (ht : g.Tended)
    (hout : ∀ id : OutletId, Option.Rel (fun o' o : Outlet => o.Like o' ∧ o'.requests = o.requests) g'.outlets[id]? g.outlets[id]?)
    (hreq : ∀ r : RequestId, (g'.requests[r]?).map (·.outlet) = (g.requests[r]?).map (·.outlet)) : g'.Tended := by
  have hsome : ∀ {id : OutletId} {o' : Outlet}, g'.outlets[id]? = some o' → ∃ o : Outlet, g.outlets[id]? = some o ∧ o.Like o' := by
    intro id o' ho'
    have := hout id
    rw [ho'] at this
    rcases ho : g.outlets[id]? with _ | o <;> rw [ho] at this
    · cases this
    · cases this with
      | some hr => exact ⟨o, rfl, hr.1⟩
  refine ht.calm h.spares h.instances (h.mirrored ht.sound.mirrored) (h.authored ht.authored) ?_ (fun id o' ho' => .inr (hsome ho'))
    (fun id o ho => ?_) fun c id hl => ?_
  · refine ht.enrolled.congr (fun m => by rw [data?, node?, h.nodes]; rfl) (fun id => ?_) hreq (Nat.le_of_eq h.lastId.symm)
    have := hout id
    generalize g'.outlets[id]? = a at this
    generalize g.outlets[id]? = b at this
    cases this with
    | none => rfl
    | some hr => rw [Option.map_some, Option.map_some, hr.1.owner, hr.1.filter, hr.2]
  · have := hout id
    rw [ho] at this
    generalize g'.outlets[id]? = a at this
    cases this with
    | some _ => rfl
  · rw [Store.listenersOf, Store.channel?, h.channels]
    exact hl

end Revalued

end Graph

end Dataflow
