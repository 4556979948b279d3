import Dataflow.Proofs.Tidy

/-!
# Every move keeps a graph tidy

What is taken down is forgotten where it was remembered, a reset empties the memos of its node at once and then takes away what they
held, and edits change no wiring. With what the steps of building keep, this makes tidiness an invariant of all moves.
-/

namespace Dataflow

namespace Graph

variable {κ : Call} {τ τ' : Work} {g g' : Graph} {n m : NodeId} {k : String} {id : InstanceId} {i : Instance} {pid : ProcessId} {p : Process}

/-! ## Taking down -/

/-- Something is taken down: the memos still say what is live. -/
theorem Tidy.of_drops (h : Tidy τ g) (hd : g.Drops g') (hj : τ'.jobs = []) (hst : τ'.stale = τ.stale)
    (ht : τ'.tear.map (·.node) = τ.tear.map (·.node)) (hi : Memoed Instance.place g'.instances g'.instanceAt? τ'.leftInstances)
    (hp : Memoed Process.place g'.processes g'.processAt? τ'.leftProcesses) : Tidy τ' g' := by
  have hfr := SameFrames.of_drops hd
  have hjobs : ∀ J, J ∉ τ'.jobs := fun J hJ => by
    rw [hj] at hJ
    cases hJ
  refine ⟨h.framed.congr hfr hst ht, ⟨hi, hp, fun m f hf ho => ?_, fun id i hi => ?_, fun id p hp => ?_, fun J hJ => absurd hJ (hjobs J), ?_⟩,
    fun J hJ => absurd hJ (hjobs J), ?_, fun hne => absurd hj hne, fun id p hp hin e he => ?_⟩
  · rw [hfr.frame] at hf
    obtain ⟨h₁, h₂⟩ := h.kept.stale m f hf ho
    refine ⟨fun k => Option.eq_none_iff_forall_ne_some.2 fun id hid => ?_, fun k => Option.eq_none_iff_forall_ne_some.2 fun id hid => ?_⟩
    · obtain ⟨w', hw', hk⟩ := Option.bind_eq_some_iff.1 hid
      obtain ⟨w, hsh, hw⟩ := hd.wiring hw'
      have := h₁ k
      rw [instanceAt?_of_wiring? hw, hsh.instances k id hk] at this
      cases this
    · obtain ⟨w', hw', hk⟩ := Option.bind_eq_some_iff.1 hid
      obtain ⟨w, hsh, hw⟩ := hd.wiring hw'
      have := h₂ k
      rw [processAt?_of_wiring? hw, hsh.processes k id hk] at this
      cases this
  · obtain ⟨u, hu⟩ := hd.instancesOf id i hi
    exact hd.lastId ▸ h.kept.instanceId id _ hu
  · obtain ⟨u, hu⟩ := hd.processesOf id p hp
    exact hd.lastId ▸ h.kept.processId id _ hu
  · rw [hj]
    exact List.nodup_nil
  · rw [hj]
    exact .nil
  · obtain ⟨u, hu⟩ := hd.processesOf id p hp
    rw [hfr.table]
    exact h.staffed.names id _ hu (hfr.inSync.1 hin) e he

/-- The owner of a live instance is a data node. -/
theorem Tidy.wiring_instance (h : Tidy τ g) (hi : g.instances[id]? = some i) : ∃ w, g.wiring? i.owner = some w := by
  rcases h.kept.instances.listed id i hi with hk | hk
  · obtain ⟨w, hw, -⟩ := Option.bind_eq_some_iff.1 hk
    exact ⟨w, hw⟩
  · rw [Work.leftInstances] at hk
    split at hk
    · rename_i t ht
      split at hk
      · rename_i hn
        obtain ⟨f, hf, -⟩ := h.framed.torn t ht
        obtain ⟨w, hw, -⟩ := Option.map_eq_some_iff.1 hf
        have hn : t.node = i.owner := hn
        exact ⟨w, hn ▸ hw⟩
      · cases hk
    · cases hk

theorem dismantle_eq {w : Wiring} (hw : g.wiring? i.owner = some w) :
    g.dismantle id i =
      modifyWiring { g with
        instances := g.instances.erase id
        store := w.releases (·.lastUsed i.substitution) [.output, .extended, .input] g.store } i.owner
        fun w => if w.instances[i.key]? = some id then { w.unused i.substitution with instances := w.instances.erase i.key }
          else w.unused i.substitution := by
  rw [dismantle]
  simp only
  rw [markAllUnused_eq (g := { g with instances := g.instances.erase id }) hw, modifyWiring_modifyWiring]
  rfl

theorem instanceAt?_dismantle (h : Tidy τ g) (hi : g.instances[id]? = some i) :
    (g.dismantle id i).instanceAt? m k = if m = i.owner ∧ k = i.key ∧ g.instanceAt? m k = some id then none else g.instanceAt? m k := by
  obtain ⟨w, hw⟩ := h.wiring_instance hi
  rw [dismantle_eq hw, instanceAt?_modifyWiring]
  by_cases hm : m = i.owner
  · subst hm
    rw [if_pos rfl]
    show (g.wiring? i.owner).bind _ = _
    rw [hw, Option.bind_some, instanceAt?_of_wiring? hw]
    simp only [true_and]
    by_cases hid : w.instances[i.key]? = some id
    · rw [if_pos hid, Table.get_erase]
      by_cases hk : k = i.key
      · rw [if_pos hk, if_pos ⟨hk, hk ▸ hid⟩]
      · rw [if_neg hk, if_neg fun hc => hk hc.1]
    · rw [if_neg hid, if_neg]
      · rfl
      · rintro ⟨rfl, hc⟩
        exact hid hc
  · rw [if_neg hm, if_neg fun hc => hm hc.1]
    rfl

theorem processAt?_dismantle (h : Tidy τ g) (hi : g.instances[id]? = some i) : (g.dismantle id i).processAt? m k = g.processAt? m k := by
  obtain ⟨w, hw⟩ := h.wiring_instance hi
  rw [dismantle_eq hw, processAt?_modifyWiring]
  split
  · rename_i hm
    subst hm
    show (g.wiring? i.owner).bind _ = _
    rw [hw, Option.bind_some, processAt?_of_wiring? hw]
    split <;> rfl
  · rfl

theorem Tidy.dismantle (h : Tidy τ g) (hi : g.instances[id]? = some i) (hj : τ'.jobs = []) (hst : τ'.stale = τ.stale) (hte : τ'.tear = τ.tear) :
    Tidy τ' (g.dismantle id i) := by
  refine h.of_drops (drops_dismantle g id i) hj hst (by rw [hte]) ?_ ?_
  · rw [instances_dismantle]
    exact (h.kept.instances.erase hi fun m k => instanceAt?_dismantle h hi).congr (fun _ => rfl) (fun _ _ => rfl)
      fun m => by rw [Work.leftInstances, hte, Work.leftInstances]
  · exact h.kept.processes.congr (fun _ => by rw [processes_dismantle]) (fun m k => processAt?_dismantle h hi)
      fun m => by rw [Work.leftProcesses, hte, Work.leftProcesses]

theorem instanceAt?_destroyProcess (hp : g.processes[pid]? = some p) : (g.destroyProcess pid).instanceAt? m k = g.instanceAt? m k := by
  rw [destroyProcess_eq hp, instanceAt?_modifyWiring]
  split
  · show (g.wiring? m).bind _ = _
    refine congrArg (Option.bind _) (funext fun w => ?_)
    split <;> rfl
  · rfl

theorem processAt?_destroyProcess (hp : g.processes[pid]? = some p) :
    (g.destroyProcess pid).processAt? m k =
      if m = p.owner ∧ k = p.key ∧ g.processAt? m k = some pid then none else g.processAt? m k := by
  rw [destroyProcess_eq hp, processAt?_modifyWiring]
  by_cases hm : m = p.owner
  · subst hm
    rw [if_pos rfl]
    show (g.wiring? p.owner).bind _ = _
    rcases hw : g.wiring? p.owner with _ | w
    · rw [processAt?, hw]
      simp only [Option.bind_none, ite_self]
    · rw [Option.bind_some, processAt?_of_wiring? hw]
      simp only [true_and]
      by_cases hid : w.processes[p.key]? = some pid
      · rw [if_pos hid, Table.get_erase]
        by_cases hk : k = p.key
        · rw [if_pos hk, if_pos ⟨hk, hk ▸ hid⟩]
        · rw [if_neg hk, if_neg fun hc => hk hc.1]
      · rw [if_neg hid, if_neg]
        rintro ⟨rfl, hc⟩
        exact hid hc
  · rw [if_neg hm, if_neg fun hc => hm hc.1]
    rfl

theorem instances_destroyProcess (g : Graph) (pid : ProcessId) : (g.destroyProcess pid).instances = g.instances :=
  (derives_destroyProcess g pid).instances

/-- A live process is destroyed. -/
theorem Tidy.destroyProcess (h : Tidy τ g) (hp : g.processes[pid]? = some p) (hj : τ'.jobs = []) (hst : τ'.stale = τ.stale)
    (hte : τ'.tear.map (·.node) = τ.tear.map (·.node)) (hi : ∀ m, τ'.leftInstances m = τ.leftInstances m)
    (hpr : Memoed Process.place (g.processes.erase pid) (g.destroyProcess pid).processAt? τ'.leftProcesses) :
    Tidy τ' (g.destroyProcess pid) := by
  refine h.of_drops (drops_destroyProcess g pid) hj hst hte ?_ ?_
  · exact h.kept.instances.congr (fun _ => by rw [instances_destroyProcess]) (fun m k => instanceAt?_destroyProcess hp) hi
  · rwa [processes_destroyProcess hp]

theorem Tidy.giveBack (h : Tidy τ g) (o : Option ProcessId) (hj : τ'.jobs = []) (hjobs : τ'.jobs = τ.jobs) (hst : τ'.stale = τ.stale)
    (hte : τ'.tear = τ.tear) : Tidy τ' (g.giveBack o) := by
  have hsame : Tidy τ' g := (Quiet.refl g).tidy h hjobs hst hte
  rcases o with _ | pid
  · exact hsame
  · rw [Graph.giveBack, releaseProcess]
    rcases hp : g.processes[pid]? with _ | p
    · exact hsame
    · simp only
      split
      · exact hsame.destroyProcess hp hj rfl rfl (fun _ => rfl) (hsame.kept.processes.erase hp fun m k => processAt?_destroyProcess hp)
      · have hq : g.Quiet { g with processes := g.processes.insert pid { p with uses := p.uses - 1 } } := .of_processUse hp ⟨rfl, rfl⟩
        exact hq.tidy h hjobs hst hte

/-! ## Resets -/

theorem Tidy.unwire (h : Tidy τ g) (hj : τ.jobs = []) (ht : τ.tear = none) {w : Wiring} (hw : g.wiring? n = some w)
    (hup : n ∈ τ.stale ∨ ∀ m, n ∉ g.references m) :
    Tidy (τ.tearing (some ⟨n, w.processes.values, w.instances.values⟩)) (g.modifyWiring n Wiring.unwired) := by
  have hf : Framed (τ.tearing (some ⟨n, w.processes.values, w.instances.values⟩)) (g.modifyWiring n Wiring.unwired) := h.framed.unwire ht hw hup
  have hframe : ∀ m, m ≠ n → (g.modifyWiring n Wiring.unwired).frame? m = g.frame? m := fun m hm => by
    rw [frame?, wiring?_modifyWiring, if_neg hm, frame?]
  have hinst : ∀ m k, (g.modifyWiring n Wiring.unwired).instanceAt? m k = if m = n then none else g.instanceAt? m k := fun m k => by
    rw [instanceAt?_modifyWiring]
    by_cases hm : m = n
    · rw [if_pos hm, if_pos hm, hm, hw]
      exact Std.ExtTreeMap.getElem?_empty
    · rw [if_neg hm, if_neg hm]
  have hproc : ∀ m k, (g.modifyWiring n Wiring.unwired).processAt? m k = if m = n then none else g.processAt? m k := fun m k => by
    rw [processAt?_modifyWiring]
    by_cases hm : m = n
    · rw [if_pos hm, if_pos hm, hm, hw]
      exact Std.ExtTreeMap.getElem?_empty
    · rw [if_neg hm, if_neg hm]
  have hjobs : ∀ J, J ∉ (τ.tearing (some ⟨n, w.processes.values, w.instances.values⟩)).jobs := fun J hJ => by
    have hJ : J ∈ τ.jobs := hJ
    rw [hj] at hJ
    cases hJ
  refine ⟨hf, ⟨h.kept.instances.tear hinst (Work.leftInstances_of_none ht) (fun m hm => if_neg (Ne.symm hm)) fun id => ?_,
    h.kept.processes.tear hproc (Work.leftProcesses_of_none ht) (fun m hm => if_neg (Ne.symm hm)) fun id => ?_, fun m f hf' ho => ?_,
    h.kept.instanceId, h.kept.processId, fun J hJ => absurd hJ (hjobs J), h.kept.apart⟩,
    fun J hJ => absurd hJ (hjobs J), h.staffed.chain, fun hne => absurd hj hne, fun id p hp hin e he => ?_⟩
  · simp only [Work.leftInstances, Work.tearing, if_true, instanceAt?_of_wiring? hw]
    exact Table.mem_values
  · simp only [Work.leftProcesses, Work.tearing, if_true, processAt?_of_wiring? hw]
    exact Table.mem_values
  · by_cases hm : m = n
    · exact ⟨fun k => by rw [hinst, if_pos hm], fun k => by rw [hproc, if_pos hm]⟩
    · rw [hframe m hm] at hf'
      obtain ⟨h₁, h₂⟩ := h.kept.stale m f hf' ho
      exact ⟨fun k => by rw [hinst, if_neg hm, h₁], fun k => by rw [hproc, if_neg hm, h₂]⟩
  · obtain ⟨f, hf', hs⟩ := inSync_iff.1 hin
    have hne : p.owner ≠ n := by
      rintro ho
      obtain ⟨f', hf'', hout, -⟩ := hf.torn _ rfl
      rw [ho, hf''] at hf'
      cases hf'
      rw [hout] at hs
      cases hs
    rw [hframe _ hne] at hf'
    rw [table_eq_frame, hframe _ hne, ← table_eq_frame]
    exact h.staffed.names id p hp (inSync_iff.2 ⟨f, hf', hs⟩) e he

theorem Tidy.destroy (h : Tidy τ g) (hj : τ.jobs = []) {ps : List ProcessId} {is : List InstanceId} (ht : τ.tear = some ⟨n, pid :: ps, is⟩) :
    Tidy (τ.tearing (some ⟨n, ps, is⟩)) (g.destroyProcess pid) := by
  have hnode : (τ.tearing (some ⟨n, ps, is⟩)).tear.map (·.node) = τ.tear.map (·.node) := by
    rw [ht]
    rfl
  have hinst : ∀ m, (τ.tearing (some ⟨n, ps, is⟩)).leftInstances m = τ.leftInstances m := fun m => by
    simp only [Work.leftInstances, ht, Work.tearing]
  have hleft : ∀ m, τ.leftProcesses m = if n = m then pid :: ps else [] := fun m => by simp only [Work.leftProcesses, ht]
  have hleft' : ∀ m, (τ.tearing (some ⟨n, ps, is⟩)).leftProcesses m = if n = m then ps else [] := fun m => by
    simp only [Work.leftProcesses, Work.tearing]
  have hmem : pid ∈ τ.leftProcesses n := by
    rw [hleft, if_pos rfl]
    exact List.mem_cons_self ..
  have hdrop : ∀ {live : IdMap Process} {memo : NodeId → String → Option Nat},
      (∀ j : Nat, live[j]? = if j = pid then none else g.processes[j]?) → (∀ m k, memo m k = g.processAt? m k) →
        Memoed Process.place live memo (τ.tearing (some ⟨n, ps, is⟩)).leftProcesses := fun hlive hmemo =>
    h.kept.processes.drop hlive hmem hmemo (fun m j hj' => by
      rw [hleft'] at hj'
      rw [hleft]
      split at hj'
      · rw [if_pos ‹_›]
        exact List.mem_cons_of_mem _ hj'
      · cases hj') fun m j hj' hne => by
      rw [hleft] at hj'
      rw [hleft']
      split at hj'
      · rw [if_pos ‹_›]
        exact (List.mem_cons.1 hj').resolve_left hne
      · cases hj'
  rcases hp : g.processes[pid]? with _ | p
  · have he : g.destroyProcess pid = g := by rw [Graph.destroyProcess, hp]
    rw [he]
    refine h.of_drops (.refl g) hj rfl hnode (h.kept.instances.congr (fun _ => rfl) (fun _ _ => rfl) hinst) (hdrop (fun j => ?_) fun _ _ => rfl)
    split
    · rename_i hj'
      rw [hj', hp]
    · rfl
  · refine h.destroyProcess hp hj rfl hnode hinst (hdrop (fun _ => Table.get_erase ..) fun m k => ?_)
    rw [processAt?_destroyProcess hp, if_neg]
    rintro ⟨rfl, -, hk⟩
    rw [(h.kept.processes.apart n pid hmem).2 p hp |> fun ho : p.owner = n => ho, (h.kept.processes.apart n pid hmem).1] at hk
    cases hk

/-- An instance of the node that is being reset goes, if it has not yet. -/
theorem Tidy.discard (h : Tidy τ g) {is : List InstanceId} (ht : τ.tear = some ⟨n, [], id :: is⟩)
    (hjobs : τ'.jobs = []) (hst : τ'.stale = τ.stale) (hte : τ'.tear = some ⟨n, [], is⟩) :
    Tidy τ' { g with instances := g.instances.erase id } := by
  have hleft : ∀ m, τ.leftInstances m = if n = m then id :: is else [] := fun m => by simp only [Work.leftInstances, ht]
  have hleft' : ∀ m, τ'.leftInstances m = if n = m then is else [] := fun m => by simp only [Work.leftInstances, hte]
  have hid : id ∈ τ.leftInstances n := by
    rw [hleft, if_pos rfl]
    exact List.mem_cons_self ..
  refine h.of_drops (drops_erase g id) hjobs hst (by rw [hte, ht]; rfl) (h.kept.instances.drop (fun _ => Table.get_erase ..) hid
    (fun _ _ => rfl) (fun m j hj' => ?_) fun m j hj' hne => ?_) (h.kept.processes.congr (fun _ => rfl) (fun _ _ => rfl) fun m => ?_)
  · rw [hleft'] at hj'
    rw [hleft]
    split at hj'
    · rw [if_pos ‹_›]
      exact List.mem_cons_of_mem _ hj'
    · cases hj'
  · rw [hleft] at hj'
    rw [hleft']
    split at hj'
    · rw [if_pos ‹_›]
      exact (List.mem_cons.1 hj').resolve_left hne
    · cases hj'
  · simp only [Work.leftProcesses, hte, ht]

/-! ## Edits -/

/-- Instances, processes and memos stay, and so do the frames of nodes in sync. -/
theorem Tidy.of_rest (h : Tidy τ g) (hf : Framed τ' g') (hj : τ'.jobs = [])
    (hrest : g'.instances = g.instances ∧ g'.processes = g.processes ∧ g'.lastId = g.lastId) (hm : g.SameMemos g')
    (hleft : (∀ m, τ'.leftInstances m = τ.leftInstances m) ∧ ∀ m, τ'.leftProcesses m = τ.leftProcesses m)
    (hframe : ∀ m f, g'.frame? m = some f → g.frame? m = some f ∨
      f.outOfSync = true ∧ ∀ f₀, g.frame? m = some f₀ → f₀.outOfSync = true) : Tidy τ' g' := by
  obtain ⟨hinst, hproc, hlast⟩ := hrest
  have hjobs : ∀ J, J ∉ τ'.jobs := fun J hJ => by
    rw [hj] at hJ
    cases hJ
  refine ⟨hf, ⟨h.kept.instances.congr (fun _ => by rw [hinst]) hm.instances hleft.1, h.kept.processes.congr (fun _ => by rw [hproc]) hm.processes
    hleft.2, fun m f hf ho => ?_, fun id i hi => ?_, fun id p hp => ?_, fun J hJ => absurd hJ (hjobs J), ?_⟩,
    fun J hJ => absurd hJ (hjobs J), ?_, fun hne => absurd hj hne, fun id p hp hin e he => ?_⟩
  · have hnone : (∀ k, g.instanceAt? m k = none) ∧ ∀ k, g.processAt? m k = none := by
      rcases hw : g.wiring? m with _ | w
      · exact ⟨fun k => by rw [instanceAt?, hw]; rfl, fun k => by rw [processAt?, hw]; rfl⟩
      · have hfr : g.frame? m = some w.frame := by rw [frame?, hw]; rfl
        refine h.kept.stale m _ hfr ?_
        rcases hframe m f hf with hsame | ⟨-, hout⟩
        · rw [hfr] at hsame
          cases hsame
          exact ho
        · exact hout _ hfr
    exact ⟨fun k => (hm.instances m k).trans (hnone.1 k), fun k => (hm.processes m k).trans (hnone.2 k)⟩
  · exact hlast ▸ h.kept.instanceId id i (hinst ▸ hi)
  · exact hlast ▸ h.kept.processId id p (hproc ▸ hp)
  · rw [hj]
    exact List.nodup_nil
  · rw [hj]
    exact .nil
  · obtain ⟨f, hf, hs⟩ := inSync_iff.1 hin
    rcases hframe _ f hf with hsame | ⟨hout, -⟩
    · rw [table_eq_frame, hf, ← hsame, ← table_eq_frame]
      exact h.staffed.names id p (hproc ▸ hp) (inSync_iff.2 ⟨f, hsame, hs⟩) e he
    · rw [hs] at hout
      cases hout

theorem Tidy.empty (h : Tidy τ g) (hj : τ.jobs = []) (ht : τ.tear = some ⟨n, [], []⟩) :
    Tidy (τ.tearing none) ([Port.input, .extended, .output].foldl (fun g port => g.clearPort n port) g) := by
  have hf := h.framed.empty ht
  obtain ⟨f, hfr, hout, -⟩ := h.framed.torn _ ht
  obtain ⟨w, hw, rfl⟩ := Option.map_eq_some_iff.1 hfr
  rw [clearPorts_eq hw] at hf ⊢
  refine h.of_rest hf hj ⟨rfl, rfl, rfl⟩ ⟨fun m k => ?_, fun m k => ?_⟩ ⟨fun m => ?_, fun m => ?_⟩ fun m a ha => ?_
  · rw [instanceAt?_modifyWiring]
    split <;> rfl
  · rw [processAt?_modifyWiring]
    split <;> rfl
  · simp only [Work.leftInstances, Work.tearing, ht, ite_self]
  · simp only [Work.leftProcesses, Work.tearing, ht, ite_self]
  · rw [frame?, wiring?_modifyWiring] at ha
    by_cases hm : m = n
    · subst hm
      rw [if_pos rfl] at ha
      obtain ⟨w', hw', rfl⟩ := Option.map_eq_some_iff.1 ha
      obtain ⟨w'', hw'', rfl⟩ := Option.map_eq_some_iff.1 hw'
      have hw'' : g.wiring? m = some w'' := hw''
      rw [hw] at hw''
      cases hw''
      exact .inr ⟨hout, fun f₀ hf₀ => by
        have hf₀ : g.frame? m = some f₀ := hf₀
        rw [frame?, hw] at hf₀
        cases hf₀
        exact hout⟩
    · rw [if_neg hm] at ha
      exact .inl ha

theorem Tidy.told (h : Tidy τ g) {ns : List NodeId} (hst : τ.stale = n :: ns) (hs : g.Unsynced n) : Tidy (τ.telling ns) g := by
  have hj : τ.jobs = [] := by
    by_contra hne
    have := (h.staffed.settled hne).stale
    rw [hst] at this
    cases this
  exact h.of_rest (h.framed.told hst hs) hj ⟨rfl, rfl, rfl⟩ (.refl g) ⟨fun _ => rfl, fun _ => rfl⟩ fun _ _ hf => .inl hf

theorem Tidy.edit (h : Tidy τ g) (hτ : τ.Settled) (hj : τ.jobs = []) (ht : Touched κ g g' n) : Tidy (τ.telling (g'.ancestors n)) g' := by
  refine h.of_rest (h.framed.edit hτ ht) hj ?_ (.of_wiring fun m => by rw [ht.wiring?]) ⟨fun _ => rfl, fun _ => rfl⟩ fun m f hf => .inl ?_
  · obtain ⟨nodes, journal, rfl⟩ := ht.rest
    exact ⟨rfl, rfl, rfl⟩
  · rwa [frame?, ht.wiring?] at hf

/-- A node that is not in sync comes or goes. -/
theorem Tidy.isolated (h : Tidy τ g) (hf : Framed τ' g') (hj : τ'.jobs = []) (hte : τ'.tear = τ.tear)
    (hrest : g'.instances = g.instances ∧ g'.processes = g.processes ∧ g'.lastId = g.lastId)
    (hw : ∀ m, m ≠ n → g'.wiring? m = g.wiring? m) (hs : g.Unsynced n)
    (hn : ∀ w, g'.wiring? n = some w → w.outOfSync = true ∧ w.instances = ∅ ∧ w.processes = ∅) : Tidy τ' g' := by
  have hnone : (∀ k, g.instanceAt? n k = none) ∧ ∀ k, g.processAt? n k = none := by
    rcases hwn : g.wiring? n with _ | w
    · exact ⟨fun k => by rw [instanceAt?, hwn]; rfl, fun k => by rw [processAt?, hwn]; rfl⟩
    · exact h.kept.stale n w.frame (by rw [frame?, hwn]; rfl) (hs w hwn)
  refine h.of_rest hf hj hrest ⟨fun m k => ?_, fun m k => ?_⟩
    ⟨fun m => by rw [Work.leftInstances, hte, Work.leftInstances], fun m => by rw [Work.leftProcesses, hte, Work.leftProcesses]⟩ fun m f hf => ?_
  · by_cases hm : m = n
    · rw [hm, hnone.1, instanceAt?]
      rcases hwn : g'.wiring? n with _ | w
      · rfl
      · rw [Option.bind_some, (hn w hwn).2.1]
        exact Std.ExtTreeMap.getElem?_empty
    · rw [instanceAt?, hw m hm, instanceAt?]
  · by_cases hm : m = n
    · rw [hm, hnone.2, processAt?]
      rcases hwn : g'.wiring? n with _ | w
      · rfl
      · rw [Option.bind_some, (hn w hwn).2.2]
        exact Std.ExtTreeMap.getElem?_empty
    · rw [processAt?, hw m hm, processAt?]
  · by_cases hm : m = n
    · subst hm
      obtain ⟨w, hwn, rfl⟩ := Option.map_eq_some_iff.1 hf
      refine .inr ⟨(hn w hwn).1, fun f₀ hf₀ => ?_⟩
      obtain ⟨w₀, hw₀, rfl⟩ := Option.map_eq_some_iff.1 hf₀
      exact hs w₀ hw₀
    · rw [frame?, hw m hm] at hf
      exact .inl hf

theorem node?_push {x : Node} (hnodes : g'.nodes = g.nodes.push x) (m : NodeId) :
    g'.node? m = if m = g.nodes.next then some x else g.node? m := by
  rw [node?, hnodes]
  exact Arena.get?_push ..

/-- A node is made that refers to nothing, is not in sync and remembers nothing. -/
theorem Tidy.push (h : Tidy τ g) (hj : τ.jobs = []) {x : Node} (hnodes : g'.nodes = g.nodes.push x) (hreg : g'.registry = g.registry)
    (hrest : g'.instances = g.instances ∧ g'.processes = g.processes ∧ g'.lastId = g.lastId)
    (hx : ∀ d, x.data? = some d → d.references = [] ∧ d.wiring.frame = .blank ∧ d.wiring.instances = ∅ ∧ d.wiring.processes = ∅) :
    Tidy τ g' := by
  refine h.isolated (n := g.nodes.next) (h.framed.push hnodes hreg fun d hd => ⟨(hx d hd).1, (hx d hd).2.1⟩) hj rfl hrest (fun m hm => ?_)
    (fun w hw => ?_) fun w hw => ?_
  · rw [wiring?, data?, node?_push hnodes, if_neg hm, wiring?, data?]
  · have hnone : g.node? g.nodes.next = none := Arena.get?_next _
    rw [wiring?, data?, hnone] at hw
    cases hw
  · obtain ⟨d, hd, rfl⟩ := exists_data_of_wiring? hw
    rw [data?, node?_push hnodes, if_pos rfl] at hd
    obtain ⟨-, hfr, hi, hp⟩ := hx d hd
    exact ⟨congrArg Frame.outOfSync hfr, hi, hp⟩

theorem Tidy.cutOff (h : Tidy τ g) (hτ : τ.Settled) (hj : τ'.jobs = []) (hrefs : ∀ m, n ∉ g.references m) (hs : g.Unsynced n)
    (hst : τ'.stale = τ.stale) (hte : τ'.tear = τ.tear) : Tidy τ' (g.cutOff n) := by
  have hget : ∀ m, (g.cutOff n).node? m = if m = n then none else g.node? m := fun m => Arena.get?_erase _ n m
  refine h.isolated (n := n) (h.framed.cutOff hτ hrefs hst hte) hj hte ⟨rfl, rfl, rfl⟩ (fun m hm => ?_) hs fun w hw => ?_
  · rw [wiring?, data?, hget, if_neg hm, wiring?, data?]
  · rw [wiring?, data?, hget, if_pos rfl] at hw
    cases hw

/-! ## All moves -/

theorem erase_instances_of_none (hi : g.instances[id]? = none) : { g with instances := g.instances.erase id } = g := by
  have he : g.instances.erase id = g.instances := Std.ExtTreeMap.ext_getElem? fun j => by
    rw [Table.get_erase]
    split
    · rename_i hj
      rw [hj, hi]
    · rfl
  rw [he]

/-- Filling a port of the node of the innermost job is quiet. -/
theorem Tidy.recached_merge (h : Tidy τ g) {J : Job} {jobs : List Job} (hj : τ.jobs = J :: jobs) {port : Port} {fs : List (String × Feed)}
    (ho : g.Offers J port fs) : g.Recached (g.mergeFeeds J.node port J.sub fs) := by
  have hw := h.staffed.wired h.framed (by rw [hj]; exact List.cons_ne_nil _ _)
  have hJ := h.staffed.jobs J (by rw [hj]; exact List.mem_cons_self ..)
  obtain ⟨w, hwn, -⟩ := id hJ.inSync
  exact recached_mergeFeeds hwn (ho.mem_table h.framed.designed hw hJ h.staffed.names)

theorem quiet_unsubscribe (g : Graph) (id : OutletId) : g.Quiet (g.unsubscribe id) := by
  rw [unsubscribe]
  split
  · exact .refl g
  · exact .of_aside ⟨_, _, _, _, _, _, rfl⟩ (Nat.le_refl _)

theorem quiet_openOutlet (g : Graph) (n : NodeId) (filter : List String) : g.Quiet (g.openOutlet n filter) := by
  have hnew : g.Quiet { g with lastId := g.lastId + 1, outlets := g.outlets.insert (g.lastId + 1) { owner := n, filter } } :=
    .of_aside ⟨_, _, _, _, _, _, rfl⟩ (Nat.le_succ _)
  exact hnew.trans (.of_modifyOutlets _ n (·.insert (outletKey filter) (g.lastId + 1)))

/-- Every move keeps a graph tidy. -/
theorem tidy_move (m : Move κ τ g τ' g') (h : Tidy τ g) : Tidy τ' g' := by
  have hquiet : ∀ {g'' : Graph} {τ'' : Work}, g.Quiet g'' → τ''.jobs = τ.jobs → τ''.stale = τ.stale → τ''.tear = τ.tear → Tidy τ'' g'' :=
    fun hq => hq.tidy h
  have haside : ∀ {g'' : Graph}, (∃ store outlets requests plans lastId journal,
      g'' = { g with store, outlets, requests, plans, lastId, journal }) → g.lastId ≤ g''.lastId → g.Quiet g'' := Quiet.of_aside
  cases m with
  | restate hr => exact hquiet (.of_restated hr) rfl rfl rfl
  | reparent hn => exact hquiet (.of_noted hn) rfl rfl rfl
  | sync n hτ ha => exact h.sync hτ ha n
  | reuse hτ hd hs hk hi => exact hquiet (.of_use hi rfl) rfl rfl rfl
  | start hτ ha hd hs hk hnest => exact h.start hτ hd hs hk hnest
  | merge hj ho => exact hquiet (.of_recached (h.recached_merge hj ho)) rfl rfl rfl
  | operate hj => exact (Quiet.refl _).tidy (h.operate hj) rfl rfl rfl
  | view hj => exact h.view hj
  | finish children proto hj ha hh hb => exact h.finish hj children proto rfl rfl rfl
  | lessen hτ hi hu => exact hquiet (.of_use hi rfl) rfl rfl rfl
  | dismantle hτ hi hu => exact h.dismantle hi hτ rfl rfl
  | miss hi => exact hquiet (.refl g) rfl rfl rfl
  | giveBack p hτ => exact h.giveBack p hτ rfl rfl rfl
  | unwire hτ ht hw hup => exact h.unwire hτ ht hw hup
  | destroy hτ ht => exact h.destroy hτ ht
  | discard hτ ht hi => exact h.discard ht hτ rfl rfl
  | pass hτ ht hi =>
    rw [← erase_instances_of_none hi]
    exact h.discard ht hτ rfl rfl
  | empty hτ ht => exact h.empty hτ ht
  | hush ht hc hd hs hid => exact hquiet ((quiet_unsubscribe ..).trans (.of_aside ⟨_, _, _, _, _, _, rfl⟩ (Nat.le_refl _))) rfl rfl rfl
  | told hst ht hs => exact h.told hst hs
  | edit hτ hj ht => exact h.edit hτ hj ht
  | addLeaf hτ => exact h.push hτ rfl rfl ⟨rfl, rfl, rfl⟩ fun d hd => absurd hd (Option.some_ne_none d).symm
  | addData b hτ => exact h.push hτ rfl rfl ⟨rfl, rfl, rfl⟩ fun d hd => by cases hd; exact ⟨rfl, rfl, rfl, rfl⟩
  | addEntry e => exact hquiet (haside ⟨_, _, _, _, _, _, rfl⟩ (Nat.le_refl _)) rfl rfl rfl
  | openOutlet hτ hc hd hk => exact hquiet (quiet_openOutlet ..) rfl rfl rfl
  | enroll ho hb => exact hquiet (haside ⟨_, _, _, _, _, _, rfl⟩ (Nat.le_succ _)) rfl rfl rfl
  | pin hc hb => exact hquiet (haside ⟨_, _, _, _, _, _, rfl⟩ (Nat.le_refl _)) rfl rfl rfl
  | unsubscribe id => exact hquiet (quiet_unsubscribe ..) rfl rfl rfl
  | giveUp ho hh => exact hquiet (haside ⟨_, _, _, _, _, _, rfl⟩ (Nat.le_refl _)) rfl rfl rfl
  | attach ho hn hc hcl => exact hquiet (haside ⟨_, _, _, _, _, _, rfl⟩ (Nat.le_refl _)) rfl rfl rfl
  | withdraw hτ hr => exact hquiet (haside ⟨_, _, _, _, _, _, rfl⟩ (Nat.le_refl _)) rfl rfl rfl
  | unasked hr => exact hquiet (.refl g) rfl rfl rfl
  | keep hb ho => exact hquiet (.refl g) rfl rfl rfl
  | close hb hτ ho he hp hc => exact hquiet (haside ⟨_, _, _, _, _, _, rfl⟩ (Nat.le_refl _)) rfl rfl rfl
  | forget hc => exact hquiet (.of_modifyOutlets g _ (·.erase _)) rfl rfl rfl
  | uproot hτ hj hc hrefs hs hidle => exact h.cutOff hτ hj hrefs hs rfl rfl
  | disclaim hsub => exact hquiet (.refl g) rfl rfl rfl

end Graph

end Dataflow
