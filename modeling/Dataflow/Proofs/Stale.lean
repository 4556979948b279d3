import Dataflow.Proofs.Fitted
import Dataflow.Proofs.Running

/-!
# What a refused run leaves

A process whose inputs are flawed does not run, and nothing in the store changes. A kernel is asked only after every output was given as
many scalars as the arguments call for; one that refuses leaves the outputs at that. So what an output held before is cut, or filled up
with zeros, to that length, and it is as it was just when it had that length already or is a texture.
-/

namespace Dataflow

theorem fitTo_eq_self {α : Type} {n : Nat} {fill : α} {l : List α} : fitTo n fill l = l ↔ l.length = n := by
  unfold fitTo
  constructor
  · intro h
    have hlen := congrArg List.length h
    simp only [List.length_append, List.length_take, List.length_replicate] at hlen
    omega
  · rintro rfl
    simp

/-- Resizing changes nothing just when there are as many scalars already, or no scalars but a texture. -/
theorem Payload.resize_eq_self {n : Nat} {p : Payload} : p.resize n = p ↔ p.size = n ∨ p.storage = .texture := by
  cases p with
  | floats l => simp [resize, size, storage, fitTo_eq_self]
  | ints l => simp [resize, size, storage, fitTo_eq_self]
  | bools l => simp [resize, size, storage, fitTo_eq_self]
  | texture t => simp [resize, storage]

theorem Entry.resize_eq_self {n : Nat} {e : Entry} : e.resize n = e ↔ e.payload.size = n ∨ e.payload.storage = .texture := by
  rw [← Payload.resize_eq_self]
  rcases e with ⟨type, payload, hs⟩
  simp [resize]

/-- What one of several different entries holds after each was changed once. -/
theorem Store.entryAt?_modifyAll_zip {α : Type} {f : α → Entry → Entry} {outs : List (String × EntryId)} {as : List α} {i : Nat} {o : String × EntryId}
    {a : α} (hn : (outs.map (·.2)).Nodup) (ho : outs[i]? = some o) (ha : as[i]? = some a) (s : Store) :
    (s.modifyAll f (outs.zip as)).entryAt? o.2 = (s.entryAt? o.2).map (f a) := by
  induction outs generalizing as i s with
  | nil => cases ho
  | cons x outs ih =>
    obtain ⟨hx, hn⟩ := List.nodup_cons.1 hn
    rcases as with _ | ⟨b, as⟩
    · cases ha
    rw [List.zip_cons_cons, modifyAll_cons]
    cases i with
    | zero =>
      cases ho
      cases ha
      rw [entryAt?_modifyAll, entryAt?_modifyEntry, if_pos rfl]
      rintro ⟨o', a'⟩ hb he
      exact hx (List.mem_map.2 ⟨o', (List.of_mem_zip hb).1, he⟩)
    | succ i =>
      simp only [List.getElem?_cons_succ] at ho ha
      rw [ih hn ho ha, entryAt?_modifyEntry, if_neg]
      rintro he
      exact hx (List.mem_map.2 ⟨o, List.mem_of_getElem? ho, he⟩)

namespace Graph

variable {g : Graph} {id : ProcessId} {p : Process}

/-- The number of scalars that every output of a process is given before its kernel is asked. -/
def room (g : Graph) (p : Process) : List Nat := p.operator.lengths (g.viewsOf p) (p.operator.iteration (g.viewsOf p)).count

theorem store_prepare (g : Graph) (p : Process) :
    (g.prepare p).store = g.store.modifyAll (fun n (e : Entry) => e.resize n) (p.outputs.zip (g.room p)) := by
  unfold prepare
  dsimp only
  split <;> rfl

/-- A kernel that refuses has written nothing. -/
theorem store_runKernel_of_refused {views : List View} {it : Iteration} {reason : String} (h : (g.runKernel p views it).2 = some reason) :
    (g.runKernel p views it).1.store = g.store := by
  unfold runKernel at h ⊢
  dsimp only at h ⊢
  rcases hk : p.operator.kernel with core | evaluate <;> rw [hk] at h <;> dsimp only at h ⊢
  · cases h
  · rcases he : evaluate it views (g.outputPayloads p) with r | news
    · rfl
    · rw [he] at h
      cases h

/-- A run is refused in one of two ways: for a flaw of the inputs, or by the kernel, when the outputs have been resized. -/
theorem store_runProcess_of_refused (hp : g.processes[id]? = some p) (hs : p.state = .unprocessed)
    (hr : ((g.runProcess id).processes[id]?).map (·.state) = some .invalidInput) :
    (g.processFlaw p ≠ none ∧ (g.runProcess id).store = g.store) ∨
      (g.processFlaw p = none ∧ (g.runProcess id).store = (g.prepare p).store) := by
  unfold runProcess at hr ⊢
  rw [hp] at hr ⊢
  dsimp only at hr ⊢
  rw [if_neg (not_not_intro hs)] at hr ⊢
  rcases hf : g.processFlaw p with _ | flaw <;> rw [hf] at hr <;> dsimp only at hr ⊢
  · rcases ha : g.applyOperator p with ⟨g₁, _ | reason⟩ <;> rw [ha] at hr <;> dsimp only at hr ⊢
    · -- it ran
      rw [processes_setState, if_pos rfl, Option.map_map] at hr
      obtain ⟨q, -, hq⟩ := Option.map_eq_some_iff.1 hr
      cases hq
    · refine .inr ⟨rfl, ?_⟩
      have href : (g.applyOperator p).2 = some reason := by rw [ha]
      have hstore := store_runKernel_of_refused (applyOperator_eq g p ▸ href)
      rw [← applyOperator_eq, ha] at hstore
      exact hstore
  · exact .inl ⟨nofun, rfl⟩

/-- Every output of a process is a texture or has as many scalars as the arguments call for. -/
def Roomy (g : Graph) (p : Process) : Prop :=
  ∀ (i : Nat) (o : String × EntryId) (e : Entry) (n : Nat), p.outputs[i]? = some o → g.entryAt? o.2 = some e → (g.room p)[i]? = some n →
    e.payload.size = n ∨ e.payload.storage = .texture

/-- What an output holds once it was resized. -/
theorem entryAt?_prepare (hfit : p.Fitted) {i : Nat} {o : String × EntryId} (ho : p.outputs[i]? = some o) (hlive : (g.entryAt? o.2).isSome) :
    ∃ e n, g.entryAt? o.2 = some e ∧ (g.room p)[i]? = some n ∧ (g.prepare p).entryAt? o.2 = some (e.resize n) := by
  have hlen : (g.room p).length = p.outputs.length := by
    rw [hfit.outputs, room, Operator.lengths, List.length_mapIdx]
  obtain ⟨n, hn⟩ : ∃ n, (g.room p)[i]? = some n := by
    refine ⟨_, List.getElem?_eq_getElem ?_⟩
    rw [hlen]
    exact (List.getElem?_eq_some_iff.1 ho).1
  obtain ⟨e, he⟩ := Option.isSome_iff_exists.1 hlive
  refine ⟨e, n, he, hn, ?_⟩
  rw [entryAt?, store_prepare, Store.entryAt?_modifyAll_zip hfit.distinct ho hn, show g.store.entryAt? o.2 = some e from he]
  rfl

/-- Resizing leaves the outputs alone just when they have the length already. -/
theorem prepare_keeps_outputs_iff (h : g.Reachable) (hp : g.processes[id]? = some p) :
    (∀ e ∈ p.writes, (g.prepare p).entryAt? e = g.entryAt? e) ↔ g.Roomy p := by
  have hlive : ∀ o ∈ p.outputs, (g.entryAt? o.2).isSome := fun o ho => h.isSome_output hp (List.mem_map.2 ⟨o, ho, rfl⟩)
  constructor
  · intro hkeep i o e n ho he hn
    obtain ⟨e', n', he', hn', hnew⟩ := entryAt?_prepare (h.fitted id p hp) ho (hlive o (List.mem_of_getElem? ho))
    obtain rfl : e' = e := Option.some.inj (he'.symm.trans he)
    obtain rfl : n' = n := Option.some.inj (hn'.symm.trans hn)
    have hsame := hkeep o.2 (List.mem_map.2 ⟨o, List.mem_of_getElem? ho, rfl⟩)
    rw [hnew, he, Option.some_inj] at hsame
    exact Entry.resize_eq_self.1 hsame
  · intro hroomy x hx
    obtain ⟨o, ho, rfl⟩ := List.mem_map.1 hx
    obtain ⟨i, hi⟩ := List.getElem?_of_mem ho
    obtain ⟨e, n, he, hn, hnew⟩ := entryAt?_prepare (h.fitted id p hp) hi (hlive o (List.mem_of_getElem? hi))
    rw [hnew, he, Entry.resize_eq_self.2 (hroomy i o e n hi he hn)]

/-- In every graph that calls lead to, a run that is refused changes no entry but outputs of the process, and leaves these as they were just
when the inputs were flawed, so that no kernel was asked, or every output had the length already that the arguments called for. -/
theorem refused_run_keeps_outputs_iff (h : g.Reachable) (hp : g.processes[id]? = some p) (hs : p.state = .unprocessed)
    (hr : ((g.runProcess id).processes[id]?).map (·.state) = some .invalidInput) :
    (∀ e, e ∉ p.writes → (g.runProcess id).entryAt? e = g.entryAt? e) ∧
    ((∀ e ∈ p.writes, (g.runProcess id).entryAt? e = g.entryAt? e) ↔ g.processFlaw p ≠ none ∨ g.Roomy p) := by
  rcases store_runProcess_of_refused hp hs hr with ⟨hf, hstore⟩ | ⟨hf, hstore⟩
  · have hsame : ∀ e, (g.runProcess id).entryAt? e = g.entryAt? e := by
      intro e
      rw [entryAt?, hstore]
      rfl
    exact ⟨fun e _ => hsame e, fun _ => .inl hf, fun _ e _ => hsame e⟩
  · have hsame : ∀ e, (g.runProcess id).entryAt? e = (g.prepare p).entryAt? e := by
      intro e
      rw [entryAt?, hstore]
      rfl
    simp only [hsame, prepare_keeps_outputs_iff h hp, hf, ne_eq, not_true_eq_false, false_or, and_true]
    intro e he
    rw [entryAt?, store_prepare]
    refine Store.entryAt?_modifyAll _ ?_ _
    rintro ⟨o, n⟩ hb rfl
    exact he (List.mem_map.2 ⟨o, (List.of_mem_zip hb).1, rfl⟩)

/-- An operator that copies numbers, and refuses if any of them is negative. -/
def cautiousOperator : Operator where
  name := "cautious"
  outputs := [⟨.int, "y", false⟩]
  params := [⟨.int, "x", false, false⟩]
  args := [⟨0, .first, none, false⟩]
  alloc := none
  kernel := .evaluate fun _ views _ => if (views.flatMap View.ints).any (· < 0) then .error "negative" else .ok [.ints (views.flatMap View.ints)]

/-- Two numbers are copied; then there are others, one of them negative. -/
def cautiousGraph (numbers : List Int32) : Graph := (new ⟨(∅ : NameMap Operator).insert "cautious" cautiousOperator⟩ {}).after
  [.createData false, .createLeaf, .createPayload .int (.ints [1, 2]), .setName 1 "x", .setData 1 (some 0), .appendChild 0 1,
    .setCompute 0 "y = cautious(x)", .createRequest 0 ["y"], .pull 2, .setPayload 0 (.ints numbers)]

/-- As long as there are two numbers the refused run leaves the two that were copied. -/
theorem refused_run_keeps_outputs_iff_cautious :
    (cautiousGraph [-1, 5]).Reachable ∧ ∃ p, (cautiousGraph [-1, 5]).processes[4]? = some p ∧ p.state = .unprocessed ∧
      (((cautiousGraph [-1, 5]).runProcess 4).processes[4]?).map (·.state) = some .invalidInput ∧
      ((cautiousGraph [-1, 5]).processFlaw p = none ∧ p.writes = [1] ∧ (cautiousGraph [-1, 5]).Roomy p ∧
        ((cautiousGraph [-1, 5]).runProcess 4).entryAt? 1 = (cautiousGraph [-1, 5]).entryAt? 1) := by
  have h : (cautiousGraph [-1, 5]).Reachable := ⟨_, _, _, rfl⟩
  have hr : (((cautiousGraph [-1, 5]).runProcess 4).processes[4]?).map (·.state) = some .invalidInput := by decide +kernel
  have hall : ((cautiousGraph [-1, 5]).processes[4]?).map
      (fun p => (p.state, (cautiousGraph [-1, 5]).processFlaw p, p.writes, (cautiousGraph [-1, 5]).room p)) =
      some (.unprocessed, none, [1], [2]) := by decide +kernel
  obtain ⟨p, hp, hq⟩ := Option.map_eq_some_iff.1 hall
  obtain ⟨hs, hf, hw, hroom⟩ : p.state = .unprocessed ∧ (cautiousGraph [-1, 5]).processFlaw p = none ∧ p.writes = [1] ∧
      (cautiousGraph [-1, 5]).room p = [2] := by simpa using hq
  have hroomy : (cautiousGraph [-1, 5]).Roomy p := by
    intro i o e n ho he hn
    have hmem : o.2 ∈ p.writes := List.mem_map.2 ⟨o, List.mem_of_getElem? ho, rfl⟩
    rw [hw, List.mem_singleton] at hmem
    have hsize : ((cautiousGraph [-1, 5]).entryAt? 1).map (·.payload.size) = some 2 := by decide +kernel
    rw [← hmem, he] at hsize
    rw [hroom] at hn
    have hn2 : n = 2 := by simpa using List.mem_of_getElem? hn
    exact Or.inl (hn2 ▸ Option.some.inj hsize)
  have hkeep := (refused_run_keeps_outputs_iff h hp hs hr).2.2 (Or.inr hroomy)
  exact ⟨h, p, hp, hs, hr, hf, hw, hroomy, hkeep 1 (hw ▸ List.mem_singleton_self 1)⟩

/-- With three numbers it does not: the two that were copied are followed by a zero. -/
theorem refused_run_alters_outputs :
    ¬ ∀ (g : Graph) (id : ProcessId) (p : Process), g.Reachable → g.processes[id]? = some p → p.state = .unprocessed →
      ((g.runProcess id).processes[id]?).map (·.state) = some .invalidInput →
      ∀ e ∈ p.writes, (g.runProcess id).entryAt? e = g.entryAt? e := by
  intro hall
  have h : (cautiousGraph [-1, 5, 7]).Reachable := ⟨_, _, _, rfl⟩
  have hpq : ((cautiousGraph [-1, 5, 7]).processes[4]?).map (fun p => (p.state, p.writes)) = some (.unprocessed, [1]) := by decide +kernel
  obtain ⟨p, hp, hq⟩ := Option.map_eq_some_iff.1 hpq
  obtain ⟨hs, hw⟩ : p.state = .unprocessed ∧ p.writes = [1] := by simpa using hq
  have hsame := hall _ 4 p h hp hs (by decide +kernel) 1 (hw ▸ List.mem_singleton_self 1)
  have hold : ((cautiousGraph [-1, 5, 7]).entryAt? 1).map (·.payload) = some (.ints [1, 2]) := by decide +kernel
  have hnew : (((cautiousGraph [-1, 5, 7]).runProcess 4).entryAt? 1).map (·.payload) = some (.ints [1, 2, 0]) := by decide +kernel
  rw [hsame, hold] at hnew
  cases hnew

end Graph

end Dataflow
