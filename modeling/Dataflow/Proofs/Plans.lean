import Dataflow.Proofs.Arranged
import Dataflow.Proofs.Overwriting

/-!
# Plans that are kept are those of the registered operators

A process runs the operator that the registry has under the name that its node computes with, and the registry never changes. So every plan
that is kept is the one that a registered operator and a pattern give, whatever ran before; and as operators are registered under their own
names, the key of a plan tells which operator that is.
-/

namespace Dataflow

namespace Graph

variable {κ : Call} {τ τ' : Work} {g g' : Graph} {id : ProcessId} {p : Process}

/-- The operators of processes are registered, and so are those whose plans are kept. -/
structure Catalogued (g : Graph) : Prop where
  registered : ∀ (id : ProcessId) (p : Process), g.processes[id]? = some p → ∃ name, g.registry.get? name = some p.operator
  planned : ∀ key plan, g.plans[key]? = some plan → ∃ name op advancing, g.registry.get? name = some op ∧
    key = op.name ++ ":" ++ Iteration.pattern advancing ∧ plan = .ofSizes op.argSizes advancing op.outputSizes

theorem Catalogued.extend (h : g.Catalogued) (hr : g'.registry = g.registry)
    (hp : ∀ (id : ProcessId) (q : Process), g'.processes[id]? = some q → ∃ name, g.registry.get? name = some q.operator)
    (hk : ∀ key plan, g'.plans[key]? = some plan → g.plans[key]? = some plan ∨ g.Devises key plan) : g'.Catalogued := by
  refine ⟨hr ▸ hp, fun key plan hkey => ?_⟩
  rw [hr]
  rcases hk key plan hkey with hold | ⟨id, p, advancing, hp, hkey, hplan⟩
  · exact h.planned key plan hold
  · obtain ⟨name, hname⟩ := h.registered id p hp
    exact ⟨name, p.operator, advancing, hname, hkey, hplan⟩

theorem Catalogued.thins (h : g.Catalogued) (ht : g.Thins g') : g'.Catalogued := by
  refine h.extend ht.registry (fun id q hq => ?_) ht.plans
  obtain ⟨p, hp, he⟩ := ht.processes id q hq
  rw [he]
  exact h.registered id p hp

theorem catalogued_move (m : Move κ τ g τ' g') (hd : Tidy τ g) {exact : Prop} (hs : Stored exact κ τ g) (h : g.Catalogued) : g'.Catalogued := by
  cases m.stride hd hs with
  | thins ht => exact h.thins ht
  | merges hj ho =>
    obtain ⟨_, _, _, he⟩ := (hd.recached_merge hj ho).rest
    rw [he]
    exact ⟨h.registered, h.planned⟩
  | @makes J _ _ _ hj ho =>
    refine h.extend rfl (fun id q hq => ?_) fun _ _ hk => .inl hk
    rw [processes_withProcess] at hq
    split at hq
    · -- the new process runs what its node computes with
      cases hq
      have hmem : J ∈ τ.jobs := hj ▸ List.mem_cons_self
      obtain ⟨d, hdata, -, hsync⟩ := (hd.staffed.jobs J hmem).exists_data
      have hwired := hd.staffed.wired hd.framed (List.ne_nil_of_mem hmem) _ d hdata hsync
      exact ⟨_, hwired.registered hdata ho⟩
    · exact h.registered id q hq

theorem catalogued_new (registry : Registry) (config : Config) : (new registry config).Catalogued :=
  ⟨fun _ _ hp => absurd (hp.symm.trans Std.ExtTreeMap.getElem?_empty) (Option.some_ne_none _),
    fun _ _ hk => absurd (hk.symm.trans Std.ExtTreeMap.getElem?_empty) (Option.some_ne_none _)⟩

/-- No move changes the registry. -/
theorem registry_move (m : Move κ τ g τ' g') (hd : Tidy τ g) {exact : Prop} (hs : Stored exact κ τ g) : g'.registry = g.registry := by
  cases m.stride hd hs with
  | thins ht => exact ht.registry
  | merges hj ho => exact (hd.recached_merge hj ho).registry
  | makes hj ho => rfl

theorem registry_after (registry : Registry) (config : Config) (calls : List Call) : ((new registry config).after calls).registry = registry := by
  have key : ∀ {a : Account} {g : Graph}, Sustained a g → ∀ calls, (g.after calls).registry = g.registry := by
    intro a g h calls
    induction calls generalizing a g with
    | nil => rfl
    | cons c calls ih =>
      have hstep := h.held_step (I := fun g' => g'.registry = g.registry) c
        (fun _ _ _ _ _ m hd _ hs hr => (registry_move m hd hs).trans hr) rfl
      exact (ih (h.step c)).trans hstep
  exact key (sustained_new registry config) calls

theorem Reachable.registry_runs (h : g.Reachable) {g₀ : Graph} {roots : List ProcessId} (hrun : g.settled.running κ = some (g₀, roots))
    (ids : List ProcessId) : (ids.foldl runProcess g₀).registry = g.registry := by
  obtain ⟨a, ha⟩ := h.sustained
  exact (moves_runs (a := a) ha.orderly.authored hrun ids).1.held (I := fun g' => g'.registry = g.registry) ha.orderly.tidy ha.orderly.posted
    (ha.stored κ) (fun _ _ _ _ _ m hd _ hs hr => (registry_move m hd hs).trans hr) rfl

theorem Reachable.catalogued_runs (h : g.Reachable) {g₀ : Graph} {roots : List ProcessId} (hrun : g.settled.running κ = some (g₀, roots))
    (ids : List ProcessId) : (ids.foldl runProcess g₀).Catalogued :=
  h.held_runs hrun ids catalogued_new fun _ _ _ _ _ m hd _ hs hc => catalogued_move m hd hs hc

/-- The plan that is kept for a process, or made for it, is its operator's. -/
theorem Catalogued.planFor (h : g.Catalogued) (hreg : g.registry.WellNamed) (hp : g.processes[id]? = some p) (advancing : List Bool) :
    (g.planFor p.operator advancing).2 = .ofSizes p.operator.argSizes advancing p.operator.outputSizes := by
  rw [Graph.planFor]
  dsimp only
  split
  · rename_i plan hkept
    obtain ⟨name, op, advancing', hop, hkey, rfl⟩ := h.planned _ plan hkept
    obtain ⟨hname, rfl⟩ := planKey_inj hkey
    -- both operators are registered under the name that they have
    obtain ⟨name', hop'⟩ := h.registered id p hp
    have hsame : some op = some p.operator := by rw [← hop, ← hop', ← hreg name op hop, ← hreg name' p.operator hop', hname]
    rw [Option.some.inj hsame]
  · rfl

end Graph

end Dataflow
