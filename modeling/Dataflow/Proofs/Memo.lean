import Dataflow.Proofs.Frames

/-!
# Memos: what nodes remember

A data node remembers its instances, its processes and its outlets by their keys. What it remembers is live and its own, and it
remembers all that is its own, but for what a reset has still to take away.
-/

namespace Dataflow

/-- The live objects of one kind are what the memo names at their places, and what is left to be taken away at some of them. -/
structure Memoed {α : Type} (place : α → NodeId × String) (live : IdMap α) (memo : NodeId → String → Option Nat)
    (rest : NodeId → List Nat) : Prop where
  sound : ∀ n k id, memo n k = some id → ∃ a, live[id]? = some a ∧ place a = (n, k)
  listed : ∀ (id : Nat) a, live[id]? = some a → memo (place a).1 (place a).2 = some id ∨ id ∈ rest (place a).1
  apart : ∀ n, ∀ id ∈ rest n, (∀ k, memo n k = none) ∧ ∀ a, live[id]? = some a → (place a).1 = n

namespace Memoed

variable {α : Type} {place : α → NodeId × String} {live live' : IdMap α} {memo memo' : NodeId → String → Option Nat}
  {rest rest' : NodeId → List Nat} {id : Nat} {a : α} {n : NodeId} {k : String}

theorem empty : Memoed place ∅ (fun _ _ => none) (fun _ => []) :=
  ⟨fun _ _ _ h => absurd h (Option.some_ne_none _).symm,
    fun _ _ h => absurd (Std.ExtTreeMap.getElem?_empty.symm.trans h) (Option.some_ne_none _).symm,
    fun _ _ h => absurd h List.not_mem_nil⟩

/-- Objects change, but not their places. -/
theorem congr (h : Memoed place live memo rest) (hlive : ∀ id : Nat, (live'[id]?).map place = (live[id]?).map place)
    (hmemo : ∀ n k, memo' n k = memo n k) (hrest : ∀ n, rest' n = rest n) : Memoed place live' memo' rest' := by
  have hof : ∀ {id : Nat} {a'}, live'[id]? = some a' → ∃ a, live[id]? = some a ∧ place a = place a' := fun {id a'} ha' => by
    have := hlive id
    rw [ha', Option.map_some, eq_comm] at this
    exact Option.map_eq_some_iff.1 this
  refine ⟨fun n k id hk => ?_, fun id a' ha' => ?_, fun n id hid => ⟨fun k => ?_, fun a' ha' => ?_⟩⟩
  · rw [hmemo] at hk
    obtain ⟨a, ha, hp⟩ := h.sound n k id hk
    have := hlive id
    rw [ha, Option.map_some, Option.map_eq_some_iff] at this
    obtain ⟨a', ha', hp'⟩ := this
    exact ⟨a', ha', hp'.trans hp⟩
  · obtain ⟨a, ha, hp⟩ := hof ha'
    rw [hmemo, hrest, ← hp]
    exact h.listed id a ha
  · rw [hrest] at hid
    rw [hmemo]
    exact (h.apart n id hid).1 k
  · rw [hrest] at hid
    obtain ⟨a, ha, hp⟩ := hof ha'
    exact hp ▸ (h.apart n id hid).2 a ha

/-- An object is changed in place. -/
theorem update (h : Memoed place live memo rest) (ha : live[id]? = some a) {a' : α} (hp : place a' = place a) :
    Memoed place (live.insert id a') memo rest := by
  refine h.congr (fun j => ?_) (fun _ _ => rfl) fun _ => rfl
  rw [Table.get_insert]
  split
  · rename_i hj
    rw [hj, ha, Option.map_some, Option.map_some, hp]
  · rfl

/-- An object is made, and remembered at its place, where nothing was. -/
theorem insert (h : Memoed place live memo rest) (hid : live[id]? = none) (hfree : memo (place a).1 (place a).2 = none)
    (hmemo : ∀ n k, memo' n k = if n = (place a).1 ∧ k = (place a).2 then some id else memo n k) (hrest : ∀ n, rest n = []) :
    Memoed place (live.insert id a) memo' rest := by
  refine ⟨fun n k j hk => ?_, fun j b hb => ?_, fun n j hj => by rw [hrest] at hj; cases hj⟩
  · rw [hmemo] at hk
    split at hk
    · rename_i hnk
      cases hk
      exact ⟨a, (Table.get_insert ..).trans (if_pos rfl), by rw [hnk.1, hnk.2]⟩
    · obtain ⟨b, hb, hp⟩ := h.sound n k j hk
      have hj : j ≠ id := by
        rintro rfl
        rw [hid] at hb
        cases hb
      exact ⟨b, (Table.get_insert ..).trans ((if_neg hj).trans hb), hp⟩
  · rw [Table.get_insert] at hb
    rw [hmemo]
    split at hb
    · rename_i hj
      cases hb
      rw [if_pos ⟨rfl, rfl⟩, hj]
      exact .inl rfl
    · have hl := h.listed j b hb
      rw [if_neg]
      · exact hl
      · rintro ⟨h₁, h₂⟩
        rw [h₁, h₂, hfree, hrest] at hl
        rcases hl with hl | hl <;> cases hl

/-- An object goes, and is forgotten. -/
theorem erase (h : Memoed place live memo rest) (ha : live[id]? = some a)
    (hmemo : ∀ n k, memo' n k = if n = (place a).1 ∧ k = (place a).2 ∧ memo n k = some id then none else memo n k) :
    Memoed place (live.erase id) memo' rest := by
  have hget : ∀ j, (live.erase id)[j]? = if j = id then none else live[j]? := fun j => Table.get_erase ..
  refine ⟨fun n k j hk => ?_, fun j b hb => ?_, fun n j hj => ⟨fun k => ?_, fun b hb => ?_⟩⟩
  · rw [hmemo] at hk
    split at hk
    · cases hk
    · rename_i hne
      obtain ⟨b, hb, hp⟩ := h.sound n k j hk
      have hj : j ≠ id := by
        rintro rfl
        rw [ha] at hb
        cases hb
        exact hne ⟨by rw [hp], by rw [hp], hk⟩
      exact ⟨b, by rw [hget, if_neg hj, hb], hp⟩
  · rw [hget] at hb
    split at hb
    · cases hb
    · rename_i hj
      rw [hmemo]
      rcases h.listed j b hb with hl | hl
      · rw [if_neg]
        · exact .inl hl
        · rintro ⟨-, -, hk⟩
          rw [hl] at hk
          exact hj (Option.some.inj hk)
      · exact .inr hl
  · rw [hmemo, (h.apart n j hj).1 k, ite_self]
  · rw [hget] at hb
    split at hb
    · cases hb
    · exact (h.apart n j hj).2 b hb

/-- A place is cleared: what it remembered is left to be taken away. -/
theorem tear (h : Memoed place live memo rest) (hmemo : ∀ m k, memo' m k = if m = n then none else memo m k)
    (hrest : ∀ m, rest m = []) (hids : ∀ m, m ≠ n → rest' m = []) (hmem : ∀ id, id ∈ rest' n ↔ ∃ k, memo n k = some id) :
    Memoed place live memo' rest' := by
  refine ⟨fun m k id hk => ?_, fun id a ha => ?_, fun m id hid => ?_⟩
  · rw [hmemo] at hk
    split at hk
    · cases hk
    · exact h.sound m k id hk
  · have hl := h.listed id a ha
    rw [hrest] at hl
    rcases hl with hl | hl
    · rw [hmemo]
      split
      · rename_i hn
        exact .inr (hn ▸ (hmem id).2 ⟨_, hn ▸ hl⟩)
      · exact .inl hl
    · cases hl
  · have hm : m = n := by
      by_contra hm
      rw [hids m hm] at hid
      cases hid
    subst hm
    refine ⟨fun k => by rw [hmemo, if_pos rfl], fun a ha => ?_⟩
    obtain ⟨k, hk⟩ := (hmem id).1 hid
    obtain ⟨b, hb, hp⟩ := h.sound m k id hk
    rw [ha] at hb
    cases hb
    rw [hp]

/-- What was left to be taken away at a place is taken away. -/
theorem drop (h : Memoed place live memo rest) (hlive : ∀ j : Nat, live'[j]? = if j = id then none else live[j]?)
    (hid : id ∈ rest n) (hmemo : ∀ n k, memo' n k = memo n k) (hrest : ∀ m, ∀ j ∈ rest' m, j ∈ rest m)
    (hkeep : ∀ m, ∀ j ∈ rest m, j ≠ id → j ∈ rest' m) : Memoed place live' memo' rest' := by
  refine ⟨fun m k j hk => ?_, fun j b hb => ?_, fun m j hj => ⟨fun k => ?_, fun b hb => ?_⟩⟩
  · rw [hmemo] at hk
    obtain ⟨b, hb, hp⟩ := h.sound m k j hk
    have hj : j ≠ id := by
      rintro rfl
      have := (h.apart n j hid).2 b hb
      rw [hp] at this
      subst this
      rw [(h.apart m j hid).1 k] at hk
      cases hk
    exact ⟨b, by rw [hlive, if_neg hj, hb], hp⟩
  · rw [hlive] at hb
    split at hb
    · cases hb
    · rename_i hj
      rw [hmemo]
      exact (h.listed j b hb).imp_right fun hl => hkeep _ j hl hj
  · rw [hmemo]
    exact (h.apart m j (hrest m j hj)).1 k
  · rw [hlive] at hb
    split at hb
    · cases hb
    · exact (h.apart m j (hrest m j hj)).2 b hb

end Memoed

/-- What the reset that is under way has still to take away of the instances of a node. -/
def Work.leftInstances (τ : Work) (n : NodeId) : List InstanceId :=
  match τ.tear with
  | some t => if t.node = n then t.instances else []
  | none => []

/-- What the reset that is under way has still to take away of the processes of a node. -/
def Work.leftProcesses (τ : Work) (n : NodeId) : List ProcessId :=
  match τ.tear with
  | some t => if t.node = n then t.processes else []
  | none => []

/-- Where an instance is remembered. -/
def Instance.place (i : Instance) : NodeId × String := (i.owner, i.key)

/-- Where a process is remembered. -/
def Process.place (p : Process) : NodeId × String := (p.owner, p.key)

namespace Graph

variable {κ : Call} {τ τ' : Work} {g g' : Graph} {n m : NodeId} {k : String}

/-- In the middle of a call: the nodes remember the live instances and processes, those that are not in sync remember none, and what is
being built is not live and has its place free. -/
structure Kept (τ : Work) (g : Graph) : Prop where
  instances : Memoed Instance.place g.instances g.instanceAt? τ.leftInstances
  processes : Memoed Process.place g.processes g.processAt? τ.leftProcesses
  stale : ∀ n f, g.frame? n = some f → f.outOfSync = true → (∀ k, g.instanceAt? n k = none) ∧ ∀ k, g.processAt? n k = none
  instanceId : ∀ (id : InstanceId) (i : Instance), g.instances[id]? = some i → id ≤ g.lastId
  processId : ∀ (id : ProcessId) (p : Process), g.processes[id]? = some p → id ≤ g.lastId
  job : ∀ J ∈ τ.jobs, J.id ≤ g.lastId ∧ g.instances[J.id]? = none ∧ g.instanceAt? J.node J.sub.fullKey = none
  apart : (τ.jobs.map (·.id)).Nodup

/-! ## Memos -/

theorem instanceAt?_of_wiring? {w : Wiring} (hw : g.wiring? n = some w) : g.instanceAt? n k = w.instances[k]? := by
  rw [instanceAt?, hw]
  rfl

theorem processAt?_of_wiring? {w : Wiring} (hw : g.wiring? n = some w) : g.processAt? n k = w.processes[k]? := by
  rw [processAt?, hw]
  rfl

/-- The nodes of two graphs remember the same. -/
structure SameMemos (g g' : Graph) : Prop where
  instances : ∀ n k, g'.instanceAt? n k = g.instanceAt? n k
  processes : ∀ n k, g'.processAt? n k = g.processAt? n k

namespace SameMemos

theorem refl (g : Graph) : g.SameMemos g := ⟨fun _ _ => rfl, fun _ _ => rfl⟩

theorem trans {g'' : Graph} (h : g.SameMemos g') (h' : g'.SameMemos g'') : g.SameMemos g'' :=
  ⟨fun n k => (h'.instances n k).trans (h.instances n k), fun n k => (h'.processes n k).trans (h.processes n k)⟩

theorem of_wiring (h : ∀ n, (g'.wiring? n).map (fun w => (w.instances, w.processes)) = (g.wiring? n).map fun w => (w.instances, w.processes)) :
    g.SameMemos g' := by
  have hi : ∀ (g : Graph) n k, g.instanceAt? n k = ((g.wiring? n).map fun w => (w.instances, w.processes)).bind (·.1[k]?) :=
    fun g n k => by rw [instanceAt?, Option.bind_map]; rfl
  have hp : ∀ (g : Graph) n k, g.processAt? n k = ((g.wiring? n).map fun w => (w.instances, w.processes)).bind (·.2[k]?) :=
    fun g n k => by rw [processAt?, Option.bind_map]; rfl
  exact ⟨fun n k => by rw [hi, h, hi], fun n k => by rw [hp, h, hp]⟩

theorem of_data (h : ∀ n, (g'.data? n).map (·.wiring) = (g.data? n).map (·.wiring)) : g.SameMemos g' :=
  of_wiring fun n => congrArg (Option.map _) (h n)

theorem of_nodes_eq (h : g'.nodes = g.nodes) : g.SameMemos g' := of_data fun n => by rw [data?, node?, h, data?, node?]

theorem of_rewired {P : NodeId → Wiring → Wiring → Prop} (h : Rewired P g g')
    (hP : ∀ m w w', P m w w' → w'.instances = w.instances ∧ w'.processes = w.processes) : g.SameMemos g' := by
  refine of_wiring fun n => ?_
  rcases h.data? n with hn | ⟨d, w, hd, hw, hn⟩
  · rw [wiring?, hn, wiring?]
  · obtain ⟨h₁, h₂⟩ := hP n _ _ hw
    rw [wiring?_of_data? hn, wiring?_of_data? hd, Option.map_some, Option.map_some, h₁, h₂]

theorem of_recached (h : g.Recached g') : g.SameMemos g' := of_rewired h.rewired fun _ _ _ hw => ⟨hw.instances, hw.processes⟩

end SameMemos

theorem instanceAt?_modifyWiring (g : Graph) (n : NodeId) (f : Wiring → Wiring) (m : NodeId) (k : String) :
    (g.modifyWiring n f).instanceAt? m k = if m = n then (g.wiring? m).bind (fun w => (f w).instances[k]?) else g.instanceAt? m k := by
  rw [instanceAt?, wiring?_modifyWiring]
  split
  · rw [Option.bind_map]
    rfl
  · rfl

theorem processAt?_modifyWiring (g : Graph) (n : NodeId) (f : Wiring → Wiring) (m : NodeId) (k : String) :
    (g.modifyWiring n f).processAt? m k = if m = n then (g.wiring? m).bind (fun w => (f w).processes[k]?) else g.processAt? m k := by
  rw [processAt?, wiring?_modifyWiring]
  split
  · rw [Option.bind_map]
    rfl
  · rfl

/-! ## What is remembered is in sync -/

theorem Work.leftInstances_of_none (h : τ.tear = none) (n : NodeId) : τ.leftInstances n = [] := by
  rw [Work.leftInstances, h]

theorem Work.leftProcesses_of_none (h : τ.tear = none) (n : NodeId) : τ.leftProcesses n = [] := by
  rw [Work.leftProcesses, h]

theorem Kept.inSync_of_instanceAt? (h : Kept τ g) {id : InstanceId} (hk : g.instanceAt? n k = some id) : g.InSync n := by
  obtain ⟨w, hw, -⟩ := Option.bind_eq_some_iff.1 hk
  refine ⟨w, hw, Bool.eq_false_iff.2 fun ho => ?_⟩
  rw [(h.stale n w.frame (by rw [frame?, hw]; rfl) ho).1] at hk
  cases hk

theorem Kept.inSync_of_processAt? (h : Kept τ g) {id : ProcessId} (hk : g.processAt? n k = some id) : g.InSync n := by
  obtain ⟨w, hw, -⟩ := Option.bind_eq_some_iff.1 hk
  refine ⟨w, hw, Bool.eq_false_iff.2 fun ho => ?_⟩
  rw [(h.stale n w.frame (by rw [frame?, hw]; rfl) ho).2] at hk
  cases hk

/-- When no reset is under way, the owner of an instance is in sync. -/
theorem Kept.inSync_instance (h : Kept τ g) (ht : τ.tear = none) {id : InstanceId} {i : Instance} (hi : g.instances[id]? = some i) :
    g.InSync i.owner := by
  rcases h.instances.listed id i hi with hk | hk
  · exact h.inSync_of_instanceAt? hk
  · rw [Work.leftInstances_of_none ht] at hk
    cases hk

theorem Kept.inSync_process (h : Kept τ g) (ht : τ.tear = none) {id : ProcessId} {p : Process} (hp : g.processes[id]? = some p) :
    g.InSync p.owner := by
  rcases h.processes.listed id p hp with hk | hk
  · exact h.inSync_of_processAt? hk
  · rw [Work.leftProcesses_of_none ht] at hk
    cases hk

end Graph

end Dataflow
