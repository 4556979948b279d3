import Dataflow.Proofs.Outcome
import Dataflow.Proofs.Takedown

/-!
# Changes of values

Running processes, telling a change of data, and publishing change values, states and results, and nothing that a graph derives from its
structure.
-/

namespace Dataflow

theorem Entry.type_of_mapTexture {f : Texture → Texture} {e e' : Entry} (h : e.mapTexture f = .ok e') : e'.type = e.type := by
  have hs := e.storage_eq
  rw [mapTexture] at h
  split at h
  · rename_i t ht
    cases h
    rw [ht] at hs
    rcases e with ⟨ty, _, _⟩
    cases ty <;> first | rfl | cases hs
  · cases h

namespace Graph

variable {g g' : Graph}

/-! ## What is restated -/

theorem restated_modifyEntry (g : Graph) (e : EntryId) {f : Entry → Entry}
    (hf : ∀ r, g.store.entries.get? e = some r → (f r.entry).type = r.entry.type) :
    g.Restated { g with store := g.store.modifyEntry e f } := by
  refine ⟨⟨_, _, _, _, _, _, rfl⟩, rfl, fun e' => ?_, fun _ => rfl, fun _ => rfl, fun _ => rfl, fun _ _ hk => .inl hk⟩
  show ((g.store.entries.modify e _).get? e').map _ = _
  rw [Arena.get?_modify]
  split
  · rename_i he
    rcases hr : g.store.entries.get? e' with _ | r
    · rfl
    · simp only [Option.map_some, hf r (he ▸ hr)]
  · rfl

theorem restated_modifyAll {α : Type} {f : α → Entry → Entry} (hf : ∀ a x, (f a x).type = x.type) (l : List ((String × EntryId) × α)) :
    ∀ g : Graph, g.Restated { g with store := g.store.modifyAll f l } := by
  induction l with
  | nil => exact fun g => .refl g
  | cons b l ih => exact fun g => (restated_modifyEntry g b.1.2 fun r _ => hf b.2 r.entry).trans (ih _)

theorem restated_processes (g : Graph) (id : ProcessId) {f : Process → Process} (hf : ∀ p, (f p).unrun = p.unrun) :
    g.Restated { g with processes := g.processes.modify id f } := by
  refine ⟨⟨_, _, _, _, _, _, rfl⟩, rfl, fun _ => rfl, fun id' => ?_, fun _ => rfl, fun _ => rfl, fun _ _ hk => .inl hk⟩
  rw [Table.get_modify]
  split
  · rw [Option.map_map]
    exact congrArg (Option.map · _) (funext hf)
  · rfl

theorem restated_modifyOutlet (g : Graph) (id : OutletId) {f : Outlet → Outlet} (hf : ∀ o, (f o).unread = o.unread) :
    g.Restated (g.modifyOutlet id f) := by
  refine ⟨⟨_, _, _, _, _, _, rfl⟩, rfl, fun _ => rfl, fun _ => rfl, fun id' => ?_, fun _ => rfl, fun _ _ hk => .inl hk⟩
  rw [get_outlets_modifyOutlet]
  split
  · rw [Option.map_map]
    exact congrArg (Option.map · _) (funext hf)
  · rfl

/-! ## Running -/

/-- A plan that is kept for the operator of a process is one that the process devises. -/
theorem restated_planFor {id : ProcessId} {p : Process} (hp : g.processes[id]? = some p) (advancing : List Bool) :
    g.Restated (g.planFor p.operator advancing).1 := by
  rw [planFor]
  dsimp only
  split
  · exact .refl g
  · refine ⟨⟨_, _, _, _, _, _, rfl⟩, rfl, fun _ => rfl, fun _ => rfl, fun _ => rfl, fun _ => rfl, fun key plan hk => ?_⟩
    rw [Std.ExtTreeMap.getElem?_insert] at hk
    split at hk
    · rename_i heq
      cases hk
      exact .inr ⟨id, p, advancing, hp, (Std.LawfulEqCmp.eq_of_compare heq).symm, rfl⟩
    · exact .inl hk

theorem restated_writeOutputs (g : Graph) (p : Process) (news : List Payload) : g.Restated (g.writeOutputs p news) :=
  restated_modifyAll (f := fun n (e : Entry) => e.write n) (fun _ _ => rfl) _ g

theorem processes_prepare (g : Graph) (p : Process) : (g.prepare p).processes = g.processes := by
  rw [prepare]
  dsimp only
  split <;> rfl

theorem restated_prepare (g : Graph) (p : Process) : g.Restated (g.prepare p) := by
  have hresize : ∀ (g : Graph) allocated count, g.Restated (g.resizeOutputs p allocated count) := fun g _ _ =>
    restated_modifyAll (f := fun n (e : Entry) => e.resize n) (fun _ _ => rfl) _ g
  rw [prepare]
  dsimp only
  split <;> exact (restated_aside g _).trans (hresize _ _ _)

theorem restated_runKernel {id : ProcessId} {p : Process} (hp : g.processes[id]? = some p) (views : List View) (it : Iteration) :
    g.Restated (g.runKernel p views it).1 := by
  have hjournal : ∀ (g : Graph) (j : Journal), g.Restated { g with journal := j } := restated_aside
  rw [runKernel]
  dsimp only
  split
  · exact (restated_planFor hp _).trans ((restated_writeOutputs ..).trans (hjournal _ _))
  · split
    · exact (restated_writeOutputs ..).trans (hjournal _ _)
    · exact hjournal _ _

theorem restated_runProcess (g : Graph) (id : ProcessId) : g.Restated (g.runProcess id) := by
  have hstate : ∀ (g : Graph) st, g.Restated (g.setState id st) := fun g st => restated_processes g id fun _ => rfl
  have hnotice : ∀ (g : Graph) n, g.Restated (g.notice n) := fun g n => restated_aside g _
  rw [runProcess]
  split
  · exact .refl g
  · rename_i p hp
    split
    · exact .refl g
    · split
      · exact (hnotice ..).trans (hstate ..)
      · have h : g.Restated (g.applyOperator p).1 := by
          rw [applyOperator_eq]
          exact (restated_prepare g p).trans (restated_runKernel (processes_prepare g p ▸ hp) ..)
        rcases ha : g.applyOperator p with ⟨g₁, _ | reason⟩ <;> rw [ha] at h <;> dsimp only
        · exact h.trans (hstate ..)
        · exact h.trans ((hnotice ..).trans (hstate ..))

theorem restated_runAll (g : Graph) (roots : List ProcessId) : g.Restated (g.runAll roots) := by
  rw [runAll]
  split
  · exact .foldl restated_runProcess _ g
  · exact .refl g

/-! ## Publishing -/

theorem restated_refresh (g : Graph) (id : OutletId) (owner : NodeId) : g.Restated (g.refresh id owner) := by
  rw [refresh]
  exact (restated_runAll ..).trans ((restated_check ..).trans (restated_modifyOutlet _ id fun _ => rfl))

theorem restated_watchRequest (g : Graph) (r : RequestId) (tag : String) : g.Restated (g.watchRequest r tag) := by
  refine ⟨⟨_, _, _, _, _, _, rfl⟩, rfl, fun _ => rfl, fun _ => rfl, fun _ => rfl, fun r' => ?_, fun _ _ hk => .inl hk⟩
  show ((g.requests.modify r _)[r']?).map _ = _
  rw [Table.get_modify]
  split
  · rw [Option.map_map]
    rfl
  · rfl

/-! ## Changes of data -/

theorem restated_unprocess (l : List ProcessId) (g : Graph) : g.Restated (g.unprocess l) := by
  induction l generalizing g with
  | nil => exact .refl g
  | cons id l ih => exact (restated_processes g id (f := ({ · with state := .unprocessed })) fun _ => rfl).trans (ih _)

theorem restated_staleData (g : Graph) (l : List OutletId) : g.Restated (g.staleData l) := by
  rw [staleData]
  refine .foldl (fun g id => restated_modifyOutlet g id fun o => ?_) l g
  rfl

theorem restated_dataChanged (g : Graph) (e : EntryId) : g.Restated (g.dataChanged e) := by
  rw [dataChanged]
  exact (restated_unprocess ..).trans ((restated_staleData ..).trans ((restated_check ..).trans (restated_fire ..)))

/-- A new value of an entry, of the type that it has. -/
theorem restated_updateEntry (g : Graph) (id : EntryId) {f : Entry → Except Error Entry} (hf : ∀ e e', f e = .ok e' → e'.type = e.type) :
    g.Restated (g.updateEntry id f).1 := by
  rw [updateEntry]
  rcases he : g.entryAt? id with _ | e <;> dsimp only
  · exact .refl g
  · split
    · exact .refl g
    · rename_i e' hok
      refine (restated_modifyEntry g id fun r hr => ?_).trans (restated_dataChanged ..)
      rw [entryAt?, Store.entryAt?, hr] at he
      rw [hf e e' hok]
      exact (congrArg Entry.type (Option.some.inj he)).symm

end Graph

end Dataflow
