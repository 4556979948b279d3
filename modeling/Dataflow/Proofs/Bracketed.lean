import Dataflow.Proofs.Ranked

/-!
# The slots on either side of a key

Reading a sequence at a key is meant to give the last slot at or before it, or the first slot at or after it. It looks for the first slot that
is not before the key less the tolerance, and takes that one or the one in front of it. That is what is meant just when the tolerance makes no
difference: every key but the first has to be reached by the key less the tolerance exactly if it is greater than the key, and every key but
the last exactly if it is at least the key. So a key that is hit spoils the slot at or before it, unless it is the first: the slot before the
one that is hit is read.
-/

namespace Dataflow

open KeyArith

namespace Sequence

/-! ## Where a condition begins to hold -/

section Lasts

variable {α : Type} {p p' : α → Bool} {l : List α}

/-- A condition that holds of all that comes after an item that it holds of. -/
def Lasts (p : α → Bool) (l : List α) : Prop := l.Pairwise fun a b => p a = true → p b = true

/-- It fails of what comes before the first item that it holds of, and of that alone. -/
theorem Lasts.lt_findIdx_iff (hp : Lasts p l) {i : Nat} (hi : i < l.length) : i < l.findIdx p ↔ p l[i] = false := by
  constructor
  · exact List.not_of_lt_findIdx
  · intro h
    by_contra hge
    have hlt : l.findIdx p < l.length := (Nat.le_of_not_lt hge).trans_lt hi
    have hfirst : p l[l.findIdx p] = true := List.findIdx_getElem
    have hi' : p l[i] = true := by
      rcases (Nat.le_of_not_lt hge).lt_or_eq with hbefore | hat
      · exact List.pairwise_iff_getElem.1 hp _ i hlt hi hbefore hfirst
      · simpa only [hat] using hfirst
    exact Bool.false_ne_true (h.symm.trans hi')

/-- The last item that it fails of stands in front of the first that it holds of. -/
theorem Lasts.find?_reverse (hp : Lasts p l) :
    l.reverse.find? (fun a => !p a) = if l.findIdx p = 0 then none else l[l.findIdx p - 1]? := by
  induction l with
  | nil => rfl
  | cons a l ih =>
    obtain ⟨ha, hl⟩ := List.pairwise_cons.1 hp
    rw [List.reverse_cons, List.find?_append, List.findIdx_cons]
    cases hpa : p a with
    | true =>
      have hnone : l.reverse.find? (fun a => !p a) = none :=
        List.find?_eq_none.2 fun b hb => by simp [ha b (List.mem_reverse.1 hb) hpa]
      simp [hnone, hpa]
    | false =>
      have hle : l.findIdx p ≤ l.length := List.findIdx_le_length
      rw [ih hl, cond_false, if_neg (Nat.succ_ne_zero _), Nat.add_sub_cancel, List.find?_cons_of_pos (by simp [hpa])]
      by_cases h0 : l.findIdx p = 0
      · simp [h0]
      · rw [if_neg h0, List.getElem?_cons, if_neg h0, List.getElem?_eq_getElem (by omega), Option.some_or]

/-- Two such conditions agree on an item exactly if it is on one side of where they begin to hold. -/
theorem Lasts.agree_iff (hp : Lasts p l) (hp' : Lasts p' l) {i : Nat} (hi : i < l.length) :
    p l[i] = p' l[i] ↔ (i < l.findIdx p ↔ i < l.findIdx p') := by
  rw [hp.lt_findIdx_iff hi, hp'.lt_findIdx_iff hi]
  cases p l[i] <;> cases p' l[i] <;> simp

/-- They begin to hold of the same item, or of the first two, if they agree on all but the first. -/
theorem Lasts.pred_findIdx_eq_iff (hp : Lasts p l) (hp' : Lasts p' l) :
    l.findIdx p - 1 = l.findIdx p' - 1 ↔ ∀ a ∈ l.tail, p a = p' a := by
  have hle : l.findIdx p ≤ l.length := List.findIdx_le_length
  have hle' : l.findIdx p' ≤ l.length := List.findIdx_le_length
  have hmem : (∀ a ∈ l.tail, p a = p' a) ↔ ∀ i, i + 1 < l.length → (i + 1 < l.findIdx p ↔ i + 1 < l.findIdx p') := by
    simp only [List.forall_mem_iff_getElem, List.length_tail, List.getElem_tail]
    exact forall_congr' fun i => ⟨fun h hi => (hp.agree_iff hp' hi).1 (h (by omega)), fun h hi => (hp.agree_iff hp' _).2 (h (by omega))⟩
  rw [hmem]
  constructor
  · intro h i _
    omega
  · intro h
    have hfrom := h (l.findIdx p - 1)
    have hfrom' := h (l.findIdx p' - 1)
    have hzero := h 0
    omega

/-- They begin to hold of the same item, or not before the last, if they agree on all but the last. -/
theorem Lasts.min_findIdx_eq_iff (hp : Lasts p l) (hp' : Lasts p' l) :
    min (l.findIdx p) (l.length - 1) = min (l.findIdx p') (l.length - 1) ↔ ∀ a ∈ l.dropLast, p a = p' a := by
  have hmem : (∀ a ∈ l.dropLast, p a = p' a) ↔ ∀ i, i < l.length - 1 → (i < l.findIdx p ↔ i < l.findIdx p') := by
    simp only [List.forall_mem_iff_getElem, List.length_dropLast, List.getElem_dropLast]
    exact forall_congr' fun i => ⟨fun h hi => (hp.agree_iff hp' _).1 (h hi), fun h hi => (hp.agree_iff hp' _).2 (h hi)⟩
  rw [hmem]
  constructor
  · intro h i hi
    omega
  · intro h
    have hfrom := h (l.findIdx p)
    have hfrom' := h (l.findIdx p')
    omega

end Lasts

/-! ## Which slots are read -/

variable {K R : Type} [KeyArith K] [LinearOrder R] {number : K → Prop} {rank : K → R} {ε q : K} {keys : List K} {slots : List (Slot K)}

/-- The last slot whose key is at most `q`; the first slot when there is none. -/
def floorSlot (q : K) (slots : List (Slot K)) : Option (Slot K) := (slots.reverse.find? fun s => le s.key q).or slots.head?

/-- The first slot whose key is at least `q`; the last slot when there is none. -/
def ceilingSlot (q : K) (slots : List (Slot K)) : Option (Slot K) := (slots.find? fun s => le q s.key).or slots.getLast?

theorem seek_eq_findIdx (hkeys : slots.map (·.key) = keys) : seek ε q slots = keys.findIdx fun k => le (sub q ε) k := by
  rw [← hkeys, List.findIdx_map]
  rfl

theorem ceilingSlot_eq (hkeys : slots.map (·.key) = keys) :
    ceilingSlot q slots = slots[min (keys.findIdx fun k => le q k) (keys.length - 1)]? := by
  subst hkeys
  rw [List.findIdx_map, List.length_map, ceilingSlot, List.find?_eq_getElem?_findIdx, List.getLast?_eq_getElem?]
  change _ = slots[min (slots.findIdx fun s => le q s.key) (slots.length - 1)]?
  have hle : (slots.findIdx fun s => le q s.key) ≤ slots.length := List.findIdx_le_length
  rcases hle.lt_or_eq with hlt | heq
  · rw [List.getElem?_eq_getElem hlt, Option.some_or, Nat.min_eq_left (by omega), List.getElem?_eq_getElem hlt]
  · rw [heq, List.getElem?_eq_none (Nat.le_refl _), Option.none_or, Nat.min_eq_right (Nat.sub_le _ _)]

theorem floorSlot_eq (h : Ranked number rank) (hq : number q) (hnum : ∀ k ∈ keys, number k) (hlt : Lasts (lt q) keys)
    (hkeys : slots.map (·.key) = keys) : floorSlot q slots = slots[keys.findIdx (lt q) - 1]? := by
  subst hkeys
  have hle : ∀ s ∈ slots.reverse, le s.key q = !lt q s.key := fun s hs =>
    h.le_eq_not_lt (hnum _ (List.mem_map_of_mem (List.mem_reverse.1 hs))) hq
  have hlast := Lasts.find?_reverse (p := fun s : Slot K => lt q s.key) (List.pairwise_map.1 hlt)
  rw [floorSlot, List.find?_congr hle, hlast, List.findIdx_map]
  change _ = slots[(slots.findIdx fun s => lt q s.key) - 1]?
  have hc : (slots.findIdx fun s => lt q s.key) ≤ slots.length := List.findIdx_le_length
  by_cases h0 : (slots.findIdx fun s => lt q s.key) = 0
  · rw [if_pos h0, h0, Option.none_or, List.head?_eq_getElem?]
  · rw [if_neg h0, List.getElem?_eq_getElem (by omega), Option.some_or]

/-- The floor stands in front of the first key that is after the number; where there is one key, it is that. -/
theorem floorSlot_of_ascending (h : Ranked number rank) (hasc : keys.Pairwise fun a b => lt a b = true) (hq : number q)
    (hkeys : slots.map (·.key) = keys) : floorSlot q slots = slots[keys.findIdx (lt q) - 1]? := by
  have hlasts : Lasts (lt q) keys := hasc.imp fun hab hqa => h.lt_trans hqa hab
  match keys, hkeys with
  | [], hkeys => exact floorSlot_eq h hq nofun hlasts hkeys
  | [k], hkeys =>
    obtain ⟨s, rfl, rfl⟩ := List.map_eq_singleton_iff.1 hkeys
    have hle : [s.key].findIdx (lt q) ≤ 1 := List.findIdx_le_length
    rw [Nat.sub_eq_zero_of_le hle, floorSlot, List.reverse_singleton, List.find?_singleton]
    split <;> rfl
  | k :: k' :: keys, hkeys =>
    obtain ⟨hk, -⟩ := List.pairwise_cons.1 hasc
    refine floorSlot_eq h hq (fun a ha => ?_) hlasts hkeys
    rcases List.mem_cons.1 ha with rfl | ha
    · exact (h.lt_iff.1 (hk k' List.mem_cons_self)).1
    · exact (h.lt_iff.1 (hk a ha)).2.1

omit [KeyArith K] in
/-- The entries at two positions are the same in all sequences with some keys exactly if the positions are. -/
theorem entries_eq_iff {i j : Nat} (hi : i < keys.length) (hj : j < keys.length) :
    (∀ slots : List (Slot K), slots.map (·.key) = keys →
      (slots[i]?).map (Reading.entry (K := K) ·.entry) = (slots[j]?).map (Reading.entry (K := K) ·.entry)) ↔ i = j := by
  constructor
  · intro h
    -- in one of them the entries are the positions
    have hread := h (keys.mapIdx fun n k => ⟨n, k, none⟩) (List.ext_getElem (by simp) (by simp))
    simpa [hi, hj] using hread
  · rintro rfl _ _
    rfl

/-- Reading a sequence at a number gives the slots on either side of it exactly if the tolerance makes no difference: for every key but the
first whether it is after the number, and for every key but the last whether it is at least the number. -/
theorem read_brackets_iff (h : Ranked number rank) (hne : keys ≠ []) (hasc : keys.Pairwise fun a b => lt a b = true) (hq : number q) :
    (∀ slots : List (Slot K), slots.map (·.key) = keys →
      read ε .floor q slots = (floorSlot q slots).map (.entry ·.entry) ∧ read ε .ceiling q slots = (ceilingSlot q slots).map (.entry ·.entry)) ↔
      (∀ k ∈ keys.tail, le (sub q ε) k = lt q k) ∧ ∀ k ∈ keys.dropLast, le (sub q ε) k = le q k := by
  have hle : ∀ q, Lasts (le q) keys := fun q => hasc.imp fun hab hqa => h.le_trans hqa (h.le_of_lt hab)
  have hlt : Lasts (lt q) keys := hasc.imp fun hab hqa => h.lt_trans hqa hab
  have hpos : 0 < keys.length := List.length_pos_iff.2 hne
  have hbound : ∀ p : K → Bool, keys.findIdx p - 1 < keys.length ∧ min (keys.findIdx p) (keys.length - 1) < keys.length := by
    intro p
    have hlen : keys.findIdx p ≤ keys.length := List.findIdx_le_length
    omega
  rw [← (hle _).pred_findIdx_eq_iff hlt, ← (hle _).min_findIdx_eq_iff (hle q), ← entries_eq_iff (hbound _).1 (hbound _).1,
    ← entries_eq_iff (hbound _).2 (hbound _).2, ← forall₂_and]
  refine forall₂_congr fun slots hkeys => ?_
  rw [floorSlot_of_ascending h hasc hq hkeys, ceilingSlot_eq hkeys, read, read, seek_eq_findIdx hkeys, ← List.length_map, hkeys]

/-- In exact arithmetic, and at a number that each key equals or is farther from than the tolerance, the slots on either side are read unless
a key other than the first is hit. -/
theorem exact_read_brackets_iff {ε q : ℚ} {keys : List ℚ} (hε : 0 ≤ ε) (hne : keys ≠ []) (hasc : keys.Pairwise (· < ·))
    (hfar : ∀ k ∈ keys, q = k ∨ ε < |q - k|) :
    (∀ slots : List (Slot ℚ), slots.map (·.key) = keys →
      read ε .floor q slots = (floorSlot q slots).map (.entry ·.entry) ∧ read ε .ceiling q slots = (ceilingSlot q slots).map (.entry ·.entry)) ↔
      q ∉ keys.tail := by
  rw [read_brackets_iff Rat.ranked hne (hasc.imp fun hab => decide_eq_true hab) trivial]
  simp only [rat_sub, rat_le, rat_lt, decide_eq_decide]
  constructor
  · exact fun h hq => lt_irrefl q ((h.1 q hq).1 (sub_le_self q hε))
  · refine fun hq => ⟨fun k hk => ?_, fun k hk => ?_⟩
    · have hqk : q ≠ k := fun he => hq (he ▸ hk)
      have hdist := (hfar k (List.mem_of_mem_tail hk)).resolve_left hqk
      rcases lt_or_gt_of_ne hqk with hlt | hgt
      · exact ⟨fun _ => hlt, fun _ => by linarith⟩
      · rw [abs_of_pos (sub_pos.2 hgt)] at hdist
        exact ⟨fun h => by linarith, fun h => by linarith⟩
    · rcases hfar k (List.mem_of_mem_dropLast hk) with rfl | hdist
      · exact ⟨fun _ => le_refl q, fun _ => sub_le_self q hε⟩
      · rcases le_or_gt q k with hle | hgt
        · exact ⟨fun _ => hle, fun _ => by linarith⟩
        · rw [abs_of_pos (sub_pos.2 hgt)] at hdist
          exact ⟨fun h => by linarith, fun h => by linarith⟩

end Sequence

namespace Float32

open Sequence

/-- Reading ascending slots at a float gives the slots on either side of it exactly if the tolerance makes no difference: for every key but
the first whether it is after the float, and for every key but the last whether it is at least the float. -/
theorem floor_and_ceiling_iff (ε q : Float32) (keys : List Float32) (hne : keys ≠ []) (hasc : keys.Pairwise (· < ·)) (hq : q.isNaN = false) :
    (∀ slots : List (Slot Float32), slots.map (·.key) = keys →
      read ε .floor q slots = (floorSlot q slots).map (.entry ·.entry) ∧ read ε .ceiling q slots = (ceilingSlot q slots).map (.entry ·.entry)) ↔
      (∀ k ∈ keys.tail, q - ε ≤ k ↔ q < k) ∧ ∀ k ∈ keys.dropLast, q - ε ≤ k ↔ q ≤ k := by
  rw [read_brackets_iff ranked hne (hasc.imp fun hab => decide_eq_true hab) hq]
  exact and_congr (forall₂_congr fun _ _ => decide_eq_decide) (forall₂_congr fun _ _ => decide_eq_decide)

/-- Between its keys a sequence is read as it should be. -/
theorem floor_and_ceiling_between : ([0, 1] : List Float32) ≠ [] ∧ ([0, 1] : List Float32).Pairwise (· < ·) ∧ (0.5 : Float32).isNaN = false ∧
    ∀ slots : List (Slot Float32), slots.map (·.key) = [0, 1] →
      read 1e-6 .floor 0.5 slots = (floorSlot 0.5 slots).map (.entry ·.entry) ∧
        read 1e-6 .ceiling 0.5 slots = (ceilingSlot 0.5 slots).map (.entry ·.entry) := by
  have hasc : ([0, 1] : List Float32).Pairwise (· < ·) := by decide +kernel
  refine ⟨nofun, hasc, by decide +kernel, ?_⟩
  exact (floor_and_ceiling_iff 1e-6 0.5 [0, 1] nofun hasc (by decide +kernel)).2 (by decide +kernel)

/-- A key that is hit, but for the slot in front of it. -/
theorem floor_misses_hit : (read (1e-6 : Float32) .floor 1 [⟨0, 0, none⟩, ⟨1, 1, none⟩] = some (.entry 0)) ∧
    (floorSlot (1 : Float32) [⟨0, 0, none⟩, ⟨1, 1, none⟩]).map (·.entry) = some 1 := by
  decide +kernel

end Float32

end Dataflow
