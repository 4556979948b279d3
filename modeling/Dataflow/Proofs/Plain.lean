import Dataflow.Proofs.Acquire
import Dataflow.Proofs.Restructure

/-!
# Plain graphs: sound but for some nodes

Where no data node has a template, nothing is ever bound, and a node has at most one instance, one process and one channel for every
name. While a change is told of, the graph is sound but for the nodes that the change concerns: these and everything that refers to
them, directly or not. What the other nodes derive does not depend on those.
-/

namespace Dataflow

namespace Substitution

theorem keyOf_empty (T : NameSet) : empty.keyOf T = "" := by
  have : (T.toList.filterMap fun name => (empty.get? name).map (keyPart name)) = [] :=
    List.filterMap_eq_nil_iff.2 fun x _ => by rw [get?_empty]; rfl
  rw [keyOf, key, this]
  rfl

theorem fullKey_empty : empty.fullKey = "" := by
  rw [fullKey_eq_keyOf (T := ∅) fun x c h => by rw [get?_empty] at h; cases h]
  exact keyOf_empty _

theorem restrict_empty (T : NameSet) : empty.restrict T = empty := ext_get? fun x => by
  rw [get?_restrict, get?_empty]
  split <;> rfl

theorem not_binds_empty (c : ChannelId) : ¬ empty.Binds c := by
  rintro ⟨x, hx⟩
  rw [get?_empty] at hx
  cases hx

end Substitution

namespace Graph

variable {D : NodeId → Prop} {hands : List InstanceId} {g g' g'' : Graph} {n : NodeId}

/-- No data node has a template. -/
def Plain (g : Graph) : Prop := ∀ n d, g.design? n = some d → d.proto = none

/-- What refers to a node of `D` is in `D` too. -/
def Upward (g : Graph) (D : NodeId → Prop) : Prop := ∀ n, ∀ r ∈ g.references n, D r → D n

/-- The instance is the only one of its node, under the substitution that binds nothing. -/
structure Unbound (i : Instance) : Prop where
  substitution : i.substitution = .empty
  key : i.key = ""

/-- A cell in use holds a channel, for the only instance that its node has. -/
structure CellAt (g : Graph) (n : NodeId) (k : String) (c : Cell) : Prop where
  uses : c.uses = 1
  key : k = ""
  live : ∃ (id : InstanceId) (i : Instance), g.instances[id]? = some i ∧ i.owner = n
  channel : ∃ ch, c.channel = some ch ∧ ch < g.store.channels.next

/-- The graph is sound but for what is derived from the nodes of `D`; of the instances outside, `hands` are in use besides. -/
structure SoundBut (D : NodeId → Prop) (hands : List InstanceId) (g : Graph) : Prop where
  founded : g.Founded
  plain : g.Plain
  upward : g.Upward D
  wired : ∀ n d, ¬ D n → g.data? n = some d → d.wiring.outOfSync = false → g.WiredAt d
  leaves : ∀ n l e, g.leaf? n = some l → l.entry = some e → g.Grounded { entry := e, key := l.key }
  anchored : g.Anchored
  instanceId : ∀ (id : InstanceId) (i : Instance), g.instances[id]? = some i → id ≤ g.lastId
  processId : ∀ (id : ProcessId) (p : Process), g.processes[id]? = some p → id ≤ g.lastId
  unbound : ∀ (id : InstanceId) (i : Instance), g.instances[id]? = some i → Unbound i
  runner : ∀ (id : InstanceId) (i : Instance) (pid : ProcessId) (p : Process), g.instances[id]? = some i → i.process = some pid →
    g.processes[pid]? = some p → p.owner = i.owner
  memo : ∀ n w k id, ¬ D n → g.wiring? n = some w →
    (w.instances[k]? = some id ↔ ∃ i : Instance, g.instances[id]? = some i ∧ i.owner = n ∧ i.key = k)
  processMemo : ∀ n w k id, ¬ D n → g.wiring? n = some w →
    (w.processes[k]? = some id ↔ ∃ p : Process, g.processes[id]? = some p ∧ p.owner = n ∧ p.key = k)
  faithful : ∀ (id : InstanceId) (i : Instance), g.instances[id]? = some i → ¬ D i.owner → g.FaithfulAt i
  process : ∀ (id : ProcessId) (p : Process), g.processes[id]? = some p → ¬ D p.owner → g.ProcessAt id p
  uses : ∀ (id : InstanceId) (i : Instance), g.instances[id]? = some i → ¬ D i.owner →
    i.uses = g.useCount id + hands.count id ∧ 0 < i.uses
  runs : ∀ (id : ProcessId) (p : Process), g.processes[id]? = some p → ¬ D p.owner →
    p.uses = 1 ∧ ∃ (j : InstanceId) (i : Instance), g.instances[j]? = some i ∧ i.process = some id
  cells : ∀ n port x k c, ¬ D n → g.cell? n port x k = some c → g.CellAt n k c
  sole : ∀ n port x k c x' k' c' ch l m, ¬ D n → g.cell? n port x k = some c → g.cell? n port x' k' = some c' →
    c.channel = some ch → c'.channel = some ch → g.mapId n port = some m → g.store.wire? ch = some (m, l) → x = x'
  mirrored : g.store.Mirrored

/-- What binds nothing is all that plain graphs build for. -/
def Nothing (s : Substitution) : Prop := s = .empty

theorem regime_nothing : Regime Nothing where
  empty := rfl
  restrict s T h := by rw [h]; exact Substitution.restrict_empty T
  keys s t T hs ht _ := by rw [hs, ht]; exact fun x _ => rfl

section Unique

/-- A clean node has one instance at most. -/
theorem SoundBut.unique (h : SoundBut D hands g) {id id' : InstanceId} {i i' : Instance} (hi : g.instances[id]? = some i)
    (hi' : g.instances[id']? = some i') (ho : i.owner = i'.owner) (hD : ¬ D i.owner) : id = id' := by
  obtain ⟨w, hw, -⟩ := (h.faithful id i hi hD).inSync
  have hk := (h.memo _ w "" id hD hw).2 ⟨i, hi, rfl, (h.unbound id i hi).key⟩
  have hk' := (h.memo _ w "" id' hD hw).2 ⟨i', hi', ho.symm, (h.unbound id' i' hi').key⟩
  rw [hk] at hk'
  exact Option.some.inj hk'

/-- The only item of a table that is counted makes the tally. -/
theorem tally_eq_of_unique {α : Type} {t : IdMap α} {f : Nat → α → Nat} {k : Nat} {v : α} (hk : t[k]? = some v)
    (h : ∀ j w, t[j]? = some w → j ≠ k → f j w = 0) : Table.tally t f = f k v := by
  rw [Table.tally_erase f hk, Table.tally_eq_zero.2, Nat.add_zero]
  intro j w hj
  rw [Table.get_erase] at hj
  split at hj
  · cases hj
  · exact h j w hj ‹_›

end Unique

/-- A sound graph without templates is sound but for no nodes. -/
theorem Sound.soundBut (h : g.Sound Nothing hands []) (hp : g.Plain) (hq : ∀ n, g.QuietAt n) :
    SoundBut (fun _ => False) hands g := by
  have hun : ∀ (id : InstanceId) (i : Instance), g.instances[id]? = some i → Unbound i := by
    intro id i hi
    obtain ⟨hf, hs⟩ := h.faithful id i hi
    exact ⟨hs, by rw [hf.key, show i.substitution = .empty from hs, Substitution.fullKey_empty]⟩
  have hunique : ∀ {id id' : InstanceId} {i i' : Instance}, g.instances[id]? = some i → g.instances[id']? = some i' →
      i.owner = i'.owner → id = id' := by
    intro id id' i i' hi hi' ho
    obtain ⟨w, hw, -⟩ := (h.faithful id i hi).1.inSync
    have hk := (h.registered.memo _ w "" id hw).2 ⟨i, hi, rfl, (hun id i hi).key⟩
    have hk' := (h.registered.memo _ w "" id' hw).2 ⟨i', hi', ho.symm, (hun id' i' hi').key⟩
    rw [hk] at hk'
    exact Option.some.inj hk'
  have hrunner : ∀ (id : InstanceId) (i : Instance) (pid : ProcessId) (p : Process), g.instances[id]? = some i →
      i.process = some pid → g.processes[pid]? = some p → p.owner = i.owner := by
    intro id i pid p hi hpid hp
    have hf := (h.faithful id i hi).1
    rw [hf.process] at hpid
    obtain ⟨co, -, hpid⟩ := Option.bind_eq_some_iff.1 hpid
    obtain ⟨w, hw, hk⟩ := Option.bind_eq_some_iff.1 hpid
    obtain ⟨q, hq, ho, -⟩ := (h.registered.processMemo _ w _ pid hw).1 hk
    rw [hp] at hq
    cases hq
    exact ho
  refine ⟨h.authored.founded, hp, fun _ _ _ h => h, fun n d _ => h.wired n d, h.leaves, h.anchored, h.registered.instanceId,
    h.registered.processId, hun, hrunner, fun n w k id _ => h.registered.memo n w k id,
    fun n w k id _ => h.registered.processMemo n w k id, fun id i hi _ => (h.faithful id i hi).1,
    fun id p hp _ => h.process id p hp, fun id i hi _ => h.counted.uses id i hi, fun id p hp _ => ?_, fun n port x k c _ hc => ?_,
    fun n port x k c x' k' c' ch l m _ h₁ h₂ h₃ h₄ h₅ h₆ => (h.stocked.sole n port x k c x' k' c' ch l m h₁ h₂ h₃ h₄ h₅ h₆).1,
    h.mirrored⟩
  · obtain ⟨huses, hpos⟩ := h.counted.runs id p hp
    rw [List.count_nil, Nat.add_zero] at huses
    rw [huses, runCount, Table.tally_pos] at hpos
    obtain ⟨j, i, hi, hpos⟩ := hpos
    have hrun : i.process = some id := by
      split at hpos
      · assumption
      · exact absurd hpos (Nat.lt_irrefl _)
    refine ⟨?_, j, i, hi, hrun⟩
    rw [huses, runCount, tally_eq_of_unique hi fun j' i' hi' hne => if_neg fun hrun' => hne ?_, if_pos hrun]
    exact hunique hi' hi ((hrunner j' i' id p hi' hrun' hp).symm.trans (hrunner j i id p hi hrun hp))
  · have huse := h.stocked.uses n port x k c hc
    have hpos := hq n port x k c hc
    rw [huse] at hpos
    obtain ⟨id, i, hi, ho, hk⟩ := sharers_ne_zero.1 hpos
    have hkey : k = "" := by
      rw [← hk, (hun id i hi).substitution]
      exact Substitution.keyOf_empty _
    refine ⟨?_, hkey, ⟨id, i, hi, ho⟩, h.stocked.channel n port x k c hc⟩
    rw [huse, sharers, tally_eq_of_unique hi fun j' i' hi' hne => if_neg fun ho' => hne (hunique hi' hi (ho'.1.trans ho.symm)),
      if_pos ⟨ho, hk⟩]

/-- A graph that is sound but for no nodes is sound. -/
theorem SoundBut.sound (h : SoundBut (fun _ => False) hands g) (ha : g.Authored) (hlive : ∀ id ∈ hands, (g.instances[id]?).isSome) :
    g.Sound Nothing hands [] ∧ ∀ n, g.QuietAt n := by
  refine ⟨⟨ha, fun n d => h.wired n d not_false, h.leaves, h.anchored,
    ⟨h.instanceId, h.processId, fun n w k id => h.memo n w k id not_false, fun n w k id => h.processMemo n w k id not_false⟩,
    fun id i hi => ⟨h.faithful id i hi not_false, (h.unbound id i hi).substitution⟩, fun id p hp => h.process id p hp not_false,
    ⟨fun id i hi => h.uses id i hi not_false, hlive, fun id p hp => ?_, fun id hid => absurd hid List.not_mem_nil⟩,
    ⟨fun n port x k c hc => ?_, fun n port x k c hc => (h.cells n port x k c not_false hc).channel,
      fun n port x k c x' k' c' ch l m h₁ h₂ h₃ h₄ h₅ h₆ => ⟨h.sole n port x k c x' k' c' ch l m not_false h₁ h₂ h₃ h₄ h₅ h₆,
        ((h.cells n port x k c not_false h₁).key).trans ((h.cells n port x' k' c' not_false h₂).key).symm⟩,
      fun n port x k hn => ?_⟩, h.mirrored⟩, fun n port x k c hc => ?_⟩
  · obtain ⟨huses, j, i, hi, hrun⟩ := h.runs id p hp not_false
    have : g.runCount id = 1 := by
      rw [runCount, tally_eq_of_unique hi fun j' i' hi' hne => if_neg fun hrun' => hne ?_, if_pos hrun]
      exact h.unique hi' hi ((h.runner j' i' id p hi' hrun' hp).symm.trans (h.runner j i id p hi hrun hp)) not_false
    rw [this, huses]
    exact ⟨rfl, Nat.one_pos⟩
  · have hat := h.cells n port x k c not_false hc
    obtain ⟨id, i, hi, ho⟩ := hat.live
    have hk : g.keyAt n port x i.substitution = k := by
      rw [(h.unbound id i hi).substitution, hat.key]
      exact Substitution.keyOf_empty _
    rw [hat.uses, sharers, tally_eq_of_unique hi fun j' i' hi' hne => if_neg fun ho' =>
      hne (h.unique hi' hi (ho'.1.trans ho.symm) not_false), if_pos ⟨ho, hk⟩]
  · rcases hc : g.cell? n port x k with _ | c
    · rfl
    · obtain ⟨id, i, hi, rfl⟩ := (h.cells n port x k c not_false hc).live
      exact absurd (h.faithful id i hi not_false).inSync hn
  · rw [(h.cells n port x k c not_false hc).uses]
    exact Nat.one_ne_zero

end Graph

end Dataflow
