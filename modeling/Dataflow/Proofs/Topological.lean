import Dataflow.Proofs.Scheduled

/-!
# Schedules sort what has to run

What some roots need, they themselves and all that they depend on, decides about their schedule: a table may say anything about the other ids.
There is a schedule exactly when no id that is needed depends on itself, directly or through others. Then it is a topological order of what
is needed; otherwise the answer is that the schedule is cyclic, which is the only error there is.
-/

namespace Dataflow

namespace Schedule

variable {next : Nat → List Nat} {deps : IdMap (List Nat)} {roots order done rest : List Nat} {i j : Nat}

/-- What the roots need: they themselves and all that they depend on. -/
def Needed (next : Nat → List Nat) (roots : List Nat) (i : Nat) : Prop := ∃ r ∈ roots, Leads next r i

/-- Something that the roots need depends on itself, directly or through others. -/
def Cyclic (next : Nat → List Nat) (roots : List Nat) : Prop := ∃ i, Needed next roots i ∧ Relation.TransGen (fun a b => b ∈ next a) i i

/-- A table that lists the dependencies of all that the roots need. -/
def Tabulates (deps : IdMap (List Nat)) (next : Nat → List Nat) (roots : List Nat) : Prop := ∀ i, Needed next roots i → depsOf deps i = next i

theorem Needed.tail (hi : Needed next roots i) (hj : j ∈ next i) : Needed next roots j := by
  obtain ⟨r, hr, hl⟩ := hi
  exact ⟨r, hr, hl.tail hj⟩

/-- What is needed is involved in the schedule by a table of it. -/
theorem Tabulates.mem_involved_iff (h : Tabulates deps next roots) : i ∈ involved deps roots ↔ Needed next roots i := by
  rw [mem_involved]
  constructor
  · rintro ⟨r, hr, hl⟩
    exact hl.mem_of_closed (fun k hk j hj => hk.tail (h k hk ▸ hj)) ⟨r, hr, .refl r⟩
  · rintro ⟨r, hr, hl⟩
    refine ⟨r, hr, ?_⟩
    induction hl with
    | refl => exact .refl r
    | tail hl hj ih => exact ih.tail (h _ ⟨r, hr, hl⟩ ▸ hj)

/-- When nothing that is needed depends on itself, and it is finitely much, no chain of its dependencies goes on for ever. -/
theorem acc_of_not_cyclic (hfin : {i | Needed next roots i}.Finite) (h : ¬ Cyclic next roots) (hi : Needed next roots i) :
    Acc (fun j i => j ∈ next i) i := by
  let before : {i // Needed next roots i} → {i // Needed next roots i} → Prop := fun j i => Relation.TransGen (fun a b => b ∈ next a) i j
  have hfinite : Finite {i // Needed next roots i} := hfin
  have htrans : IsTrans _ before := ⟨fun _ _ _ hab hbc => Relation.TransGen.trans hbc hab⟩
  have hirrefl : Std.Irrefl before := ⟨fun i hcycle => h ⟨i, i.2, hcycle⟩⟩
  have hacc : ∀ i : {i // Needed next roots i}, Acc (fun j i => j ∈ next i) i.1 := by
    intro i
    induction i using (Finite.wellFounded_of_trans_of_irrefl before).induction with
    | _ i ih => exact .intro _ fun j hj => ih ⟨j, i.2.tail hj⟩ (.single hj)
  exact hacc ⟨i, hi⟩

theorem Tabulates.exists_compile (h : Tabulates deps next roots) (hfin : {i | Needed next roots i}.Finite) (hac : ¬ Cyclic next roots) :
    ∃ order, compile deps roots = .ok order := by
  refine exists_compile_of_acc fun i hi => ?_
  have hacc := acc_of_not_cyclic hfin hac (h.mem_involved_iff.1 hi)
  induction hacc with
  | intro i _ ih =>
    have hneed := h.mem_involved_iff.1 hi
    refine .intro i fun j hj => ?_
    rw [h i hneed] at hj
    exact ih j hj (h.mem_involved_iff.2 (hneed.tail hj))

end Schedule

end Dataflow
