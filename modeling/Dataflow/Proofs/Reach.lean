import Mathlib
import Dataflow.Reach

/-!
# Reachability: the search finds exactly what links lead to

A search that may visit as many ids as a closed list of them has visits all that the links lead to, each once.
-/

namespace Dataflow

/-- `j` is reached from `i` by following links. -/
def Leads (next : Nat → List Nat) : Nat → Nat → Prop := Relation.ReflTransGen fun a b => b ∈ next a

theorem Leads.refl {next : Nat → List Nat} (i : Nat) : Leads next i i := Relation.ReflTransGen.refl

theorem Leads.head {next : Nat → List Nat} {i j k : Nat} (h : j ∈ next i) (hjk : Leads next j k) : Leads next i k :=
  Relation.ReflTransGen.head h hjk

theorem Leads.tail {next : Nat → List Nat} {i j k : Nat} (hij : Leads next i j) (h : k ∈ next j) : Leads next i k :=
  Relation.ReflTransGen.tail hij h

theorem Leads.trans {next : Nat → List Nat} {i j k : Nat} (hij : Leads next i j) (hjk : Leads next j k) : Leads next i k :=
  Relation.ReflTransGen.trans hij hjk

/-- A closed set holds all that its members lead to. -/
theorem Leads.mem_of_closed {next : Nat → List Nat} {P : Nat → Prop} (hP : ∀ i, P i → ∀ j ∈ next i, P j) {i j : Nat}
    (h : Leads next i j) (hi : P i) : P j := by
  induction h with
  | refl => exact hi
  | tail _ hj ih => exact hP _ ih _ hj

/-- Where one goes from leads to the same, as long as the steps on the way do. -/
theorem Leads.congr {next next' : Nat → List Nat} {i j : Nat} (he : ∀ k, Leads next i k → next' k = next k) (h : Leads next i j) :
    Leads next' i j := by
  induction h with
  | refl => exact .refl i
  | tail hk hj ih => exact ih.tail (he _ hk ▸ hj)

namespace ReachAux

/-- What a search has put by is in its result. -/
theorem mem_visit_of_seen (next : Nat → List Nat) :
    ∀ n seen todo, ∀ i ∈ seen, i ∈ visit next n seen todo := by
  intro n
  induction n with
  | zero => exact fun _ _ i h => h
  | succ n ih =>
    intro seen todo i h
    rw [visit]
    split
    · exact h
    · exact ih _ _ i (List.mem_append_left _ h)

theorem mem_of_dropWhile {seen todo : List Nat} {i : Nat} (h : i ∈ todo.dropWhile (seen.contains ·)) : i ∈ todo :=
  (List.dropWhile_sublist _).subset h

/-- What is waiting is put by already, or it waits behind the first that is not. -/
theorem mem_seen_or_mem_dropWhile (seen : List Nat) {todo : List Nat} {i : Nat} (h : i ∈ todo) :
    i ∈ seen ∨ i ∈ todo.dropWhile (seen.contains ·) := by
  rw [← List.takeWhile_append_dropWhile (p := (seen.contains ·)) (l := todo), List.mem_append] at h
  rcases h with h | h
  · exact .inl (List.contains_iff_mem.1 (List.mem_takeWhile_imp h))
  · exact .inr h

/-- Every id that a search visits is led to by what it began with. -/
theorem visit_sound (next : Nat → List Nat) :
    ∀ n seen todo, ∀ i ∈ visit next n seen todo, i ∈ seen ∨ ∃ t ∈ todo, Leads next t i := by
  intro n
  induction n with
  | zero => exact fun _ _ i h => .inl h
  | succ n ih =>
    intro seen todo i h
    rw [visit] at h
    split at h
    · exact .inl h
    · rename_i t rest ht
      have hmem : ∀ j ∈ t :: rest, j ∈ todo := fun j hj => mem_of_dropWhile (ht ▸ hj)
      rcases ih _ _ i h with h | ⟨j, hj, hji⟩
      · rcases List.mem_append.1 h with h | h
        · exact .inl h
        · rw [List.mem_singleton.1 h]
          exact .inr ⟨t, hmem t (List.mem_cons_self ..), .refl t⟩
      · rcases List.mem_append.1 hj with hj | hj
        · exact .inr ⟨t, hmem t (List.mem_cons_self ..), .head (List.mem_reverse.1 hj) hji⟩
        · exact .inr ⟨j, hmem j (List.mem_cons_of_mem _ hj), hji⟩

/-- A search that may visit as many ids as a closed list `all` still has visits a closed set with everything that waits. -/
theorem visit_closed {next : Nat → List Nat} {all : List Nat} (hall : ∀ i ∈ all, ∀ j ∈ next i, j ∈ all) :
    ∀ n seen todo, seen.Nodup → seen ⊆ all → todo ⊆ all → all.length ≤ n + seen.length →
      (∀ i ∈ seen, ∀ j ∈ next i, j ∈ seen ∨ j ∈ todo) →
      (visit next n seen todo).Nodup ∧ (∀ t ∈ todo, t ∈ visit next n seen todo) ∧
        ∀ i ∈ visit next n seen todo, ∀ j ∈ next i, j ∈ visit next n seen todo := by
  intro n
  induction n with
  | zero =>
    intro seen todo hn hs ht hl hf
    have hsub : all ⊆ seen := by
      have hp : seen.Subperm all := List.subperm_of_subset hn hs
      exact (hp.perm_of_length_le (by omega)).symm.subset
    exact ⟨hn, fun t h => hsub (ht h), fun i hi j hj => hsub (hall i (hs hi) j hj)⟩
  | succ n ih =>
    intro seen todo hn hs ht hl hf
    rw [visit]
    split
    · rename_i hd
      have hts : ∀ t ∈ todo, t ∈ seen := by
        intro t h
        rcases mem_seen_or_mem_dropWhile seen h with h | h
        · exact h
        · rw [hd] at h
          exact absurd h List.not_mem_nil
      refine ⟨hn, hts, fun i hi j hj => ?_⟩
      rcases hf i hi j hj with h | h
      · exact h
      · exact hts j h
    · rename_i t rest hd
      have hmem : ∀ j ∈ t :: rest, j ∈ todo := fun j hj => mem_of_dropWhile (hd ▸ hj)
      have hta : t ∈ all := ht (hmem t (List.mem_cons_self ..))
      have hns : t ∉ seen := by
        have h0 := List.head?_dropWhile_not (seen.contains ·) todo
        rw [hd] at h0
        simpa using h0
      obtain ⟨h1, h2, h3⟩ := ih (seen ++ [t]) ((next t).reverse ++ rest)
        (List.nodup_append.2 ⟨hn, List.nodup_singleton t, fun a ha b hb => by
          rw [List.mem_singleton.1 hb]; rintro rfl; exact hns ha⟩)
        (by
          intro i hi
          rcases List.mem_append.1 hi with hi | hi
          · exact hs hi
          · rw [List.mem_singleton.1 hi]; exact hta)
        (by
          intro i hi
          rcases List.mem_append.1 hi with hi | hi
          · exact hall t hta i (List.mem_reverse.1 hi)
          · exact ht (hmem i (List.mem_cons_of_mem _ hi)))
        (by rw [List.length_append, List.length_singleton]; omega)
        (by
          intro i hi j hj
          rcases List.mem_append.1 hi with hi | hi
          · rcases hf i hi j hj with h | h
            · exact .inl (List.mem_append_left _ h)
            · rcases mem_seen_or_mem_dropWhile seen h with h | h
              · exact .inl (List.mem_append_left _ h)
              · rw [hd] at h
                rcases List.mem_cons.1 h with rfl | h
                · exact .inl (List.mem_append_right _ (List.mem_singleton_self _))
                · exact .inr (List.mem_append_right _ h)
          · rw [List.mem_singleton.1 hi] at hj
            exact .inr (List.mem_append_left _ (List.mem_reverse.2 hj)))
      refine ⟨h1, fun u hu => ?_, h3⟩
      rcases mem_seen_or_mem_dropWhile seen hu with h | h
      · exact mem_visit_of_seen next _ _ _ u (List.mem_append_left _ h)
      · rw [hd] at h
        rcases List.mem_cons.1 h with rfl | h
        · exact mem_visit_of_seen next _ _ _ u (List.mem_append_right _ (List.mem_singleton_self _))
        · exact h2 u (List.mem_append_right _ h)

end ReachAux

open ReachAux

/-- What is reached is led to by where the search starts. -/
theorem reachable_sound {n : Nat} {next : Nat → List Nat} {start : List Nat} {i : Nat} (h : i ∈ reachable n next start) :
    ∃ t ∈ start, Leads next t i := by
  rcases visit_sound next n [] start i h with h | h
  · exact absurd h List.not_mem_nil
  · exact h

/-- Everything is reached that the start leads to, when the ids in question fit into a closed list of at most `n`. -/
theorem reachable_complete {n : Nat} {next : Nat → List Nat} {start all : List Nat} (hs : start ⊆ all)
    (hall : ∀ i ∈ all, ∀ j ∈ next i, j ∈ all) (hn : all.length ≤ n) {t i : Nat} (ht : t ∈ start) (h : Leads next t i) :
    i ∈ reachable n next start := by
  obtain ⟨-, h2, h3⟩ := visit_closed hall n [] start List.nodup_nil (List.nil_subset _) hs (by simpa using hn)
    (fun i hi => absurd hi List.not_mem_nil)
  exact h.mem_of_closed h3 (h2 t ht)

theorem nodup_reachable {n : Nat} {next : Nat → List Nat} {start all : List Nat} (hs : start ⊆ all)
    (hall : ∀ i ∈ all, ∀ j ∈ next i, j ∈ all) (hn : all.length ≤ n) : (reachable n next start).Nodup :=
  (visit_closed hall n [] start List.nodup_nil (List.nil_subset _) hs (by simpa using hn)
    (fun i hi => absurd hi List.not_mem_nil)).1

end Dataflow
