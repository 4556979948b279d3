import Dataflow.Proofs.Reach
import Dataflow.Proofs.Tables
import Dataflow.Schedule

/-!
# Schedules list what has to run

A schedule lists its roots and all that they depend on, each once and each after what it depends on. There is one whenever everything
depends on smaller ids alone.
-/

namespace Dataflow

namespace Schedule

variable {deps : IdMap (List Nat)} {roots ids order queue done rest : List Nat} {i : Nat}

theorem mem_depsOf (hj : i ∈ depsOf deps j) : i ∈ deps.values.flatten := by
  rw [depsOf] at hj
  rcases hd : deps[j]? with _ | l <;> rw [hd] at hj
  · cases hj
  · exact List.mem_flatten.2 ⟨l, Table.mem_values.2 ⟨j, hd⟩, hj⟩

/-- Exactly what the roots lead to is involved. -/
theorem mem_involved : i ∈ involved deps roots ↔ ∃ r ∈ roots, Leads (depsOf deps) r i := by
  rw [involved, List.mem_mergeSort]
  constructor
  · exact reachable_sound
  · rintro ⟨r, hr, hl⟩
    exact reachable_complete (List.subset_append_left _ _) (fun _ _ j hj => List.mem_append_right _ (mem_depsOf hj))
      (List.length_append ▸ Nat.le_refl _) hr hl

theorem nodup_involved : (involved deps roots).Nodup :=
  (List.mergeSort_perm _ _).nodup_iff.2 (nodup_reachable (List.subset_append_left _ _)
    (fun _ _ _ hj => List.mem_append_right _ (mem_depsOf hj)) (List.length_append ▸ Nat.le_refl _))

/-- A schedule under way: listed or waiting, each once, are those of the ids that depend on what is listed alone. -/
structure Underway (deps : IdMap (List Nat)) (ids order queue : List Nat) : Prop where
  nodup : (order ++ queue).Nodup
  mem : ∀ i, i ∈ order ++ queue ↔ i ∈ ids ∧ ∀ j ∈ depsOf deps i, j ∈ order

theorem Underway.start (h : ids.Nodup) : Underway deps ids [] (ids.filter fun i => (depsOf deps i).isEmpty) := by
  refine ⟨h.filter _, fun i => ?_⟩
  simp [List.eq_nil_iff_forall_not_mem]

theorem mem_released : i ∈ released deps ids order j ↔ i ∈ ids ∧ j ∈ depsOf deps i ∧ ∀ k ∈ depsOf deps i, k ∈ order := by
  simp [released]

/-- The first that waits is listed, and those wait that it releases. -/
theorem Underway.step (hids : ids.Nodup) (h : Underway deps ids order (i :: queue)) :
    Underway deps ids (order ++ [i]) (queue ++ released deps ids (order ++ [i]) i) := by
  have hassoc : ∀ l, (order ++ [i]) ++ (queue ++ l) = (order ++ i :: queue) ++ l := fun l => by simp
  have hfresh : ∀ j ∈ order ++ i :: queue, i ∉ depsOf deps j := fun j hj hi =>
    (List.nodup_append.1 h.nodup).2.2 i (((h.mem j).1 hj).2 i hi) i List.mem_cons_self rfl
  refine ⟨?_, fun j => ?_⟩
  · rw [hassoc, List.nodup_append]
    refine ⟨h.nodup, hids.filter _, fun j hj k hk hjk => ?_⟩
    subst hjk
    exact hfresh j hj (mem_released.1 hk).2.1
  · rw [hassoc, List.mem_append, h.mem, mem_released]
    constructor
    · rintro (⟨hj, hd⟩ | ⟨hj, -, hd⟩)
      · exact ⟨hj, fun k hk => List.mem_append_left _ (hd k hk)⟩
      · exact ⟨hj, hd⟩
    · rintro ⟨hj, hd⟩
      by_cases hi : i ∈ depsOf deps j
      · exact .inr ⟨hj, hi, hd⟩
      · refine .inl ⟨hj, fun k hk => (List.mem_append.1 (hd k hk)).resolve_right fun he => ?_⟩
        exact hi (List.mem_singleton.1 he ▸ hk)

/-- What stays true when an id is added whose dependencies are listed is true of the schedule that is made, and this is under way, with
nothing that waits or as much as was asked for. -/
theorem Underway.extend (hids : ids.Nodup) {P : List Nat → Prop}
    (snoc : ∀ order i, P order → (∀ j ∈ depsOf deps i, j ∈ order) → P (order ++ [i])) (n : Nat) (h : Underway deps ids order queue)
    (hP : P order) : P (extend deps ids n order queue) ∧ ∃ queue', Underway deps ids (extend deps ids n order queue) queue' ∧
      (queue' = [] ∨ (extend deps ids n order queue).length = order.length + n) := by
  induction n generalizing order queue with
  | zero => exact ⟨hP, queue, h, .inr rfl⟩
  | succ n ih =>
    rcases queue with _ | ⟨i, queue⟩
    · exact ⟨hP, [], h, .inl rfl⟩
    · have hi := ((h.mem i).1 (List.mem_append_right _ List.mem_cons_self)).2
      obtain ⟨hP', queue', h', hend⟩ := ih (h.step hids) (snoc order i hP hi)
      refine ⟨hP', queue', h', hend.imp_right fun hlen => hlen.trans ?_⟩
      rw [List.length_append, List.length_singleton, Nat.add_assoc, Nat.add_comm 1]

/-- What is listed is among the ids, each once. -/
theorem Underway.subperm (h : Underway deps ids order queue) : order.Subperm ids :=
  List.subperm_of_subset (List.nodup_append.1 h.nodup).1 fun i hi => ((h.mem i).1 (List.mem_append_left _ hi)).1

/-- What is listed when nothing waits any more, or as much is listed as is involved. -/
theorem exists_underway (deps : IdMap (List Nat)) (roots : List Nat) : ∃ order queue, Underway deps (involved deps roots) order queue ∧
    (queue = [] ∨ order.length = (involved deps roots).length) ∧
    compile deps roots = if order.length = (involved deps roots).length then .ok order else .error .cyclicSchedule := by
  have hids : (involved deps roots).Nodup := nodup_involved
  obtain ⟨-, queue, hu, hend⟩ := (Underway.start hids).extend hids (P := fun _ => True) (fun _ _ _ _ => trivial)
    (involved deps roots).length trivial
  exact ⟨_, queue, hu, hend.imp_right fun h => h.trans (Nat.zero_add _), rfl⟩

/-- What can be said of the empty schedule, and stays true when an id is added whose dependencies are listed, can be said of every
schedule. -/
theorem compile_induction (h : compile deps roots = .ok order) {P : List Nat → Prop} (nil : P [])
    (snoc : ∀ order i, P order → (∀ j ∈ depsOf deps i, j ∈ order) → P (order ++ [i])) : P order := by
  rw [compile] at h
  split at h
  · cases h
    exact ((Underway.start nodup_involved).extend nodup_involved snoc _ nil).1
  · cases h

/-- A schedule lists what is involved. -/
theorem mem_of_compile (h : compile deps roots = .ok order) : i ∈ order ↔ i ∈ involved deps roots := by
  obtain ⟨order', queue, hu, -, he⟩ := exists_underway deps roots
  rw [he] at h
  split at h
  · rename_i hlen
    cases h
    exact (hu.subperm.perm_of_length_le hlen.ge).mem_iff
  · cases h

theorem nodup_of_compile (h : compile deps roots = .ok order) : order.Nodup := by
  obtain ⟨order', queue, hu, -, he⟩ := exists_underway deps roots
  rw [he] at h
  split at h
  · cases h
    exact (List.nodup_append.1 hu.nodup).1
  · cases h

/-- A schedule lists every id after all that it depends on. -/
theorem mem_done_of_compile (h : compile deps roots = .ok (done ++ i :: rest)) : ∀ j ∈ depsOf deps i, j ∈ done := by
  refine compile_induction h (P := fun order => ∀ done i rest, order = done ++ i :: rest → ∀ j ∈ depsOf deps i, j ∈ done) ?_ ?_ done i rest rfl
  · exact fun done i rest he => absurd he (by simp)
  · intro order k ih hk done i rest he
    rcases List.eq_nil_or_concat rest with rfl | ⟨rest, l, rfl⟩
    · obtain ⟨rfl, hi⟩ := List.append_inj' he rfl
      cases hi
      exact hk
    · rw [List.concat_eq_append, ← List.cons_append, ← List.append_assoc] at he
      exact ih done i rest (List.append_inj' he rfl).1

/-- There is a schedule when no chain of dependencies of what is involved goes on for ever. -/
theorem exists_compile_of_acc (h : ∀ i ∈ involved deps roots, Acc (fun j i => j ∈ depsOf deps i) i) : ∃ order, compile deps roots = .ok order := by
  obtain ⟨order, queue, hu, hend, he⟩ := exists_underway deps roots
  refine ⟨order, he.trans (if_pos ?_)⟩
  rcases hend with rfl | hlen
  · -- nothing that is involved is left out, by induction along the dependencies
    have hall : ∀ i ∈ involved deps roots, i ∈ order := by
      intro i hi
      induction h i hi with
      | intro i _ ih =>
        have hmem := (hu.mem i).2 ⟨hi, fun j hj => ih j hj ?_⟩
        · rwa [List.append_nil] at hmem
        · obtain ⟨r, hr, hl⟩ := mem_involved.1 hi
          exact mem_involved.2 ⟨r, hr, hl.tail hj⟩
    exact Nat.le_antisymm hu.subperm.length_le (List.subperm_of_subset nodup_involved hall).length_le
  · exact hlen

/-- There is a schedule when everything depends on smaller ids. -/
theorem exists_compile (h : ∀ i, ∀ j ∈ depsOf deps i, j < i) (roots : List Nat) : ∃ order, compile deps roots = .ok order :=
  exists_compile_of_acc fun i _ => Subrelation.accessible (h _ _) (Nat.lt_wfRel.wf.apply i)

/-! ## Dependencies that agree -/

/-- Dependencies that agree on what some roots lead to involve the same. -/
theorem involved_congr (h : ∀ j ∈ involved deps roots, depsOf deps' j = depsOf deps j) : involved deps' roots = involved deps roots := by
  have hstep : ∀ r ∈ roots, ∀ k, Leads (depsOf deps) r k → depsOf deps' k = depsOf deps k := fun r hr k hk => h k (mem_involved.2 ⟨r, hr, hk⟩)
  have hback : ∀ r ∈ roots, ∀ i, Leads (depsOf deps') r i → Leads (depsOf deps) r i := fun r hr i hi => by
    induction hi with
    | refl => exact .refl r
    | tail _ hj ih => exact ih.tail (hstep r hr _ ih ▸ hj)
  have hperm : (involved deps' roots).Perm (involved deps roots) := by
    refine (List.perm_ext_iff_of_nodup nodup_involved nodup_involved).2 fun i => ?_
    rw [mem_involved, mem_involved]
    exact exists_congr fun r => and_congr_right fun hr => ⟨hback r hr i, fun hi => Leads.congr (hstep r hr) hi⟩
  exact hperm.eq_of_pairwise' (List.pairwise_mergeSort' (· ≤ ·) _) (List.pairwise_mergeSort' (· ≤ ·) _)

theorem released_congr (h : ∀ j ∈ ids, depsOf deps' j = depsOf deps j) : released deps' ids order i = released deps ids order i :=
  List.filter_congr fun j hj => by rw [h j hj]

theorem extend_congr (h : ∀ j ∈ ids, depsOf deps' j = depsOf deps j) (n : Nat) : extend deps' ids n order queue = extend deps ids n order queue := by
  induction n generalizing order queue with
  | zero => rfl
  | succ n ih =>
    rcases queue with _ | ⟨i, queue⟩
    · rfl
    · rw [extend, extend, released_congr h]
      exact ih

/-- Dependencies that agree on what some roots lead to make the same schedule of them. -/
theorem compile_congr (h : ∀ j ∈ involved deps roots, depsOf deps' j = depsOf deps j) : compile deps' roots = compile deps roots := by
  simp only [compile, involved_congr h, extend_congr h, List.filter_congr fun j hj => congrArg List.isEmpty (h j hj)]

end Schedule

end Dataflow
