import Dataflow.Proofs.Bracketed

/-!
# Reading between keys interpolates

The slots on either side of a key and the weight of the key between them interpolate linearly. Whatever numbers the slots stand for, going
from the one at or before the key towards the one at or after it, by the weight, gives the piecewise linear function through the points of
all slots, which is constant before the first key and after the last. It differs within the tolerance after a key alone, where it keeps the
number of that key. This is so in exact arithmetic, when the keys are farther apart than the tolerance.
-/

namespace Dataflow

open KeyArith

/-! ## Piecewise linear functions -/

/-- The piecewise linear function through some points in order, which is constant before the first and after the last. -/
def interpolant : List (ℚ × ℚ) → ℚ → ℚ
  | [], _ => 0
  | [(_, v)], _ => v
  | (k, v) :: (k', v') :: rest, q =>
    if q ≤ k then v else if q ≤ k' then v + (v' - v) * ((q - k) / (k' - k)) else interpolant ((k', v') :: rest) q

section Interpolant

variable {l : List (ℚ × ℚ)} {k v k' v' q : ℚ}

theorem interpolant_of_le_head (hq : q ≤ k) : interpolant ((k, v) :: l) q = v := by
  rcases l with _ | ⟨⟨k', v'⟩, l⟩
  · rfl
  · rw [interpolant, if_pos hq]

/-- From the second point on, the first one makes no difference. -/
theorem interpolant_of_second_le (hk : k < k') (hq : k' ≤ q) : interpolant ((k, v) :: (k', v') :: l) q = interpolant ((k', v') :: l) q := by
  rw [interpolant, if_neg (not_le.2 (hk.trans_le hq))]
  split
  · rename_i hle
    obtain rfl := le_antisymm hle hq
    rw [div_self (sub_ne_zero.2 hk.ne'), mul_one, add_sub_cancel, interpolant_of_le_head le_rfl]
  · rfl

theorem head_le_of_mem {a : ℚ × ℚ} (hasc : (a :: l).Pairwise fun a b => a.1 < b.1) (hmem : (k, v) ∈ a :: l) : a.1 ≤ k := by
  rcases List.mem_cons.1 hmem with rfl | hmem
  · exact le_rfl
  · exact ((List.pairwise_cons.1 hasc).1 _ hmem).le

theorem interpolant_between (hasc : l.Pairwise fun a b => a.1 < b.1) {i : Nat} (hi : l[i]? = some (k, v)) (hi' : l[i + 1]? = some (k', v'))
    (hq : k ≤ q) (hq' : q ≤ k') : interpolant l q = v + (v' - v) * ((q - k) / (k' - k)) := by
  induction l generalizing i with
  | nil => cases hi
  | cons a l ih =>
    obtain ⟨ha, hl⟩ := List.pairwise_cons.1 hasc
    rcases i with _ | i
    · obtain ⟨rfl⟩ : a = (k, v) := by simpa using hi
      obtain ⟨l, rfl⟩ : ∃ l', l = (k', v') :: l' := by
        rcases l with _ | ⟨b, l⟩
        · cases hi'
        · obtain ⟨rfl⟩ : b = (k', v') := by simpa using hi'
          exact ⟨l, rfl⟩
      rw [interpolant]
      split
      · rename_i hle
        rw [le_antisymm hle hq, sub_self, zero_div, mul_zero, add_zero]
      · rfl
    · rw [List.getElem?_cons_succ] at hi hi'
      rcases l with _ | ⟨b, l⟩
      · cases hi
      · have hb : b.1 ≤ k := head_le_of_mem hl (List.mem_of_getElem? hi)
        rw [interpolant_of_second_le (ha b List.mem_cons_self) (hb.trans hq)]
        exact ih hl hi hi'

theorem interpolant_of_last_le (hasc : l.Pairwise fun a b => a.1 < b.1) (hlast : l.getLast? = some (k, v)) (hq : k ≤ q) :
    interpolant l q = v := by
  induction l with
  | nil => cases hlast
  | cons a l ih =>
    obtain ⟨ha, hl⟩ := List.pairwise_cons.1 hasc
    rcases l with _ | ⟨b, l⟩
    · obtain ⟨rfl⟩ : a = (k, v) := by simpa using hlast
      rfl
    · rw [List.getLast?_cons_cons] at hlast
      have hb : b.1 ≤ k := head_le_of_mem hl (List.mem_of_getLast? hlast)
      rw [interpolant_of_second_le (ha b List.mem_cons_self) (hb.trans hq)]
      exact ih hl hlast

end Interpolant

namespace Sequence

variable {ε q w : ℚ} {keys : List ℚ} {slots : List (Slot ℚ)} {i j p x : Nat}

/-- Keys in order that are farther apart than the tolerance. -/
def Spaced (ε : ℚ) (keys : List ℚ) : Prop := keys.Pairwise fun a b => a + ε < b

/-- `q` comes after the key, by the tolerance at most. -/
def JustAfter (ε q k : ℚ) : Prop := k < q ∧ q ≤ k + ε

/-- What reading at `q` comes to, for all sequences with some keys: the slots at positions `p` and `x`, with a weight between them. -/
structure Brackets (ε q : ℚ) (keys : List ℚ) (p x : Nat) (w : ℚ) : Prop where
  floor_lt : p < keys.length
  ceiling_lt : x < keys.length
  reads : ∀ slots : List (Slot ℚ), slots.map (·.key) = keys → read ε .floor q slots = (slots[p]?).map (.entry ·.entry) ∧
    read ε .ceiling q slots = (slots[x]?).map (.entry ·.entry) ∧ read ε .weight q slots = some (.weight w)

/-- The number at `p`, moved towards the number at `x` by the weight. -/
def blend (v : Nat → ℚ) (p x : Nat) (w : ℚ) : ℚ := v p + (v x - v p) * w

theorem clamp_eq (w : ℚ) : clamp w = min 1 (max 0 w) := by
  simp only [clamp, rat_lt, rat_zero, rat_one, decide_eq_true_eq]
  grind

/-! ## The position that is looked for -/

/-- The position of the first key that is at least `q` less the tolerance. -/
def firstFrom (ε q : ℚ) (keys : List ℚ) : Nat := keys.findIdx fun k => decide (q - ε ≤ k)

theorem seek_eq_firstFrom (hkeys : slots.map (·.key) = keys) : seek ε q slots = firstFrom ε q keys := seek_eq_findIdx hkeys

theorem lt_of_lt_firstFrom (hj : j < keys.length) (h : j < firstFrom ε q keys) : keys[j] < q - ε :=
  not_le.1 (of_decide_eq_false (List.not_of_lt_findIdx h))

theorem le_of_firstFrom (hi : firstFrom ε q keys = i) (hlt : i < keys.length) : q - ε ≤ keys[i] := by
  subst hi
  exact of_decide_eq_true (List.findIdx_getElem (p := fun k => decide (q - ε ≤ k)) (w := hlt))

/-- Just after a key, the position of that key is found. -/
theorem firstFrom_of_justAfter (hs : Spaced ε keys) (hj : j < keys.length) (h : JustAfter ε q keys[j]) : firstFrom ε q keys = j := by
  obtain ⟨hlt, hle⟩ := h
  apply le_antisymm
  · by_contra hgt
    have hbefore := lt_of_lt_firstFrom hj (not_le.1 hgt)
    linarith
  · by_contra hlt'
    have hi := not_le.1 hlt'
    have hfrom := le_of_firstFrom rfl (hi.trans hj)
    have hgap := List.pairwise_iff_getElem.1 hs _ j (hi.trans hj) hj hi
    linarith

/-! ## The weight -/

theorem weightAt_zero : weightAt q slots 0 = 0 := by
  rw [weightAt]
  split
  · rw [if_pos rfl, rat_zero]
  · rw [rat_zero]

theorem weightAt_length : weightAt q slots slots.length = 0 := by
  rw [weightAt, List.getElem?_eq_none (Nat.le_refl _)]
  split
  · contradiction
  · rw [rat_zero]

theorem weightAt_succ (hkeys : slots.map (·.key) = keys) (hi : i + 1 < keys.length) :
    weightAt q slots (i + 1) = min 1 (max 0 ((q - keys[i]) / (keys[i + 1] - keys[i]))) := by
  subst hkeys
  rw [List.length_map] at hi
  rw [weightAt, Nat.add_sub_cancel, List.getElem?_eq_getElem hi, List.getElem?_eq_getElem (by omega)]
  simp only [if_neg (Nat.succ_ne_zero i), clamp_eq, rat_div, rat_sub, List.getElem_map]

theorem brackets_of_weight (hne : keys ≠ [])
    (hw : ∀ slots : List (Slot ℚ), slots.map (·.key) = keys → weightAt q slots (firstFrom ε q keys) = w) :
    Brackets ε q keys (firstFrom ε q keys - 1) (min (firstFrom ε q keys) (keys.length - 1)) w := by
  have hpos : 0 < keys.length := List.length_pos_iff.2 hne
  have hle : firstFrom ε q keys ≤ keys.length := List.findIdx_le_length
  refine ⟨by omega, by omega, fun slots hkeys => ⟨?_, ?_, ?_⟩⟩
  · rw [read, seek_eq_firstFrom hkeys]
  · rw [read, seek_eq_firstFrom hkeys, ← List.length_map (·.key), hkeys]
  · have hslots : slots.isEmpty = false := by
      rw [List.isEmpty_eq_false_iff]
      rintro rfl
      exact hne hkeys.symm
    rw [read, seek_eq_firstFrom hkeys, hslots, if_neg Bool.false_ne_true, hw slots hkeys]

/-! ## Interpolation -/

/-- Whatever numbers the slots stand for, the blend by the weight is their interpolant, except just after a key, where it is the number of
that. -/
structure Interpolates (ε q : ℚ) (keys : List ℚ) (p x : Nat) (w : ℚ) : Prop where
  nonneg : 0 ≤ w
  le_one : w ≤ 1
  just_after : ∀ (v : Nat → ℚ) j (hj : j < keys.length), JustAfter ε q keys[j] → blend v p x w = v j
  elsewhere : ∀ v : Nat → ℚ, (∀ k ∈ keys, ¬ JustAfter ε q k) → blend v p x w = interpolant (keys.mapIdx fun i k => (k, v i)) q

theorem blend_self (v : Nat → ℚ) (p : Nat) : blend v p p 0 = v p := by
  rw [blend, mul_zero, add_zero]

/-- The points of keys in order are in order. -/
theorem Spaced.points (hε : 0 ≤ ε) (hs : Spaced ε keys) (v : Nat → ℚ) : (keys.mapIdx fun i k => (k, v i)).Pairwise fun a b => a.1 < b.1 := by
  refine List.pairwise_iff_getElem.2 fun i j hi hj hij => ?_
  rw [List.length_mapIdx] at hi hj
  have hgap := List.pairwise_iff_getElem.1 hs i j hi hj hij
  simp only [List.getElem_mapIdx]
  linarith

/-- At or before the first key the first slot is read. -/
theorem interpolates_before (hs : Spaced ε keys) (hne : keys ≠ []) (hi : firstFrom ε q keys = 0) :
    Brackets ε q keys 0 0 0 ∧ Interpolates ε q keys 0 0 0 := by
  have hpos : 0 < keys.length := List.length_pos_iff.2 hne
  constructor
  · have hb := brackets_of_weight (ε := ε) (q := q) (w := 0) hne fun slots _ => by rw [hi, weightAt_zero]
    rwa [hi, Nat.zero_sub, Nat.zero_min] at hb
  · refine ⟨le_rfl, zero_le_one, fun v j hj hafter => ?_, fun v hnot => ?_⟩
    · rw [blend_self, ← firstFrom_of_justAfter hs hj hafter, hi]
    · obtain ⟨k, keys, rfl⟩ := List.exists_cons_of_ne_nil hne
      have hfrom : q - ε ≤ k := le_of_firstFrom hi hpos
      have hle : q ≤ k := by
        by_contra hlt
        exact hnot k List.mem_cons_self ⟨not_le.1 hlt, by linarith⟩
      rw [blend_self, List.mapIdx_cons, interpolant_of_le_head hle]

/-- Between two keys their slots are read, and the weight is one as soon as the second key is reached. -/
theorem interpolates_between (hε : 0 ≤ ε) (hs : Spaced ε keys) (hi : firstFrom ε q keys = i + 1) (hlt : i + 1 < keys.length) :
    ∃ w, Brackets ε q keys i (i + 1) w ∧ Interpolates ε q keys i (i + 1) w := by
  have hbefore : keys[i] < q - ε := lt_of_lt_firstFrom (by omega) (by omega)
  have hfrom : q - ε ≤ keys[i + 1] := le_of_firstFrom hi hlt
  have hgap := List.pairwise_iff_getElem.1 hs i (i + 1) (by omega) hlt (Nat.lt_succ_self i)
  have hwidth : 0 < keys[i + 1] - keys[i] := by linarith
  refine ⟨min 1 (max 0 ((q - keys[i]) / (keys[i + 1] - keys[i]))), ?_, le_min zero_le_one (le_max_left _ _), min_le_left _ _,
    fun v j hj hafter => ?_, fun v hnot => ?_⟩
  · have hb := brackets_of_weight (ε := ε) (q := q) (List.length_pos_iff.1 (Nat.zero_lt_of_lt hlt))
      fun slots hkeys => by rw [hi, weightAt_succ hkeys hlt]
    rwa [hi, Nat.add_sub_cancel, Nat.min_eq_left (by omega)] at hb
  · obtain rfl : i + 1 = j := hi.symm.trans (firstFrom_of_justAfter hs hj hafter)
    have hone : 1 ≤ (q - keys[i]) / (keys[i + 1] - keys[i]) := (one_le_div hwidth).2 (by linarith [hafter.1])
    rw [blend, min_eq_left (hone.trans (le_max_right _ _)), mul_one, add_sub_cancel]
  · have hle : q ≤ keys[i + 1] := by
      by_contra hlt'
      exact hnot _ (List.getElem_mem hlt) ⟨not_le.1 hlt', by linarith⟩
    have hratio : 0 ≤ (q - keys[i]) / (keys[i + 1] - keys[i]) := div_nonneg (by linarith) hwidth.le
    have hat : (keys.mapIdx fun i k => (k, v i))[i]? = some (keys[i], v i) := by simp
    have hat' : (keys.mapIdx fun i k => (k, v i))[i + 1]? = some (keys[i + 1], v (i + 1)) := by simp
    rw [blend, max_eq_right hratio, min_eq_right ((div_le_one hwidth).2 (by linarith)),
      interpolant_between (hs.points hε v) hat hat' (by linarith) hle]

/-- After the last key the last slot is read. -/
theorem interpolates_after (hε : 0 ≤ ε) (hs : Spaced ε keys) (hne : keys ≠ []) (hi : firstFrom ε q keys = keys.length) :
    Brackets ε q keys (keys.length - 1) (keys.length - 1) 0 ∧ Interpolates ε q keys (keys.length - 1) (keys.length - 1) 0 := by
  have hpos : 0 < keys.length := List.length_pos_iff.2 hne
  constructor
  · have hb := brackets_of_weight (ε := ε) (q := q) (w := 0) hne fun slots hkeys => by
      rw [hi, ← hkeys, List.length_map, weightAt_length]
    rwa [hi, Nat.min_eq_right (Nat.sub_le _ _)] at hb
  · refine ⟨le_rfl, zero_le_one, fun v j hj hafter => ?_, fun v hnot => ?_⟩
    · rw [firstFrom_of_justAfter hs hj hafter] at hi
      omega
    · have hbefore : keys[keys.length - 1] < q - ε := lt_of_lt_firstFrom (by omega) (by omega)
      rw [blend_self, interpolant_of_last_le (hs.points hε v) (k := keys[keys.length - 1]) (v := v (keys.length - 1)) ?_ (by linarith)]
      rw [List.getLast?_eq_getElem?, List.length_mapIdx, List.getElem?_mapIdx, List.getElem?_eq_getElem (by omega)]
      rfl

/-- Reading at a key interpolates linearly between the slots on either side of it. -/
theorem reading_interpolates (ε q : ℚ) (keys : List ℚ) (hε : 0 ≤ ε) (hne : keys ≠ []) (hs : Spaced ε keys) :
    ∃ p x w, Brackets ε q keys p x w ∧ Interpolates ε q keys p x w := by
  have hle : firstFrom ε q keys ≤ keys.length := List.findIdx_le_length
  rcases hi : firstFrom ε q keys with _ | i
  · exact ⟨0, 0, 0, interpolates_before hs hne hi⟩
  · rcases Nat.lt_or_ge (i + 1) keys.length with hlt | hge
    · exact ⟨i, i + 1, interpolates_between hε hs hi hlt⟩
    · exact ⟨_, _, _, interpolates_after hε hs hne (by omega)⟩

/-- Reading a quarter of the way between two keys. -/
theorem reading_interpolates_quarter : (0 : ℚ) ≤ 1 / 10 ∧ ([0, 2] : List ℚ) ≠ [] ∧ Spaced (1 / 10) [0, 2] ∧
    ∃ p x w, Brackets (1 / 10) (1 / 2) [0, 2] p x w ∧ Interpolates (1 / 10) (1 / 2) [0, 2] p x w := by
  have hs : Spaced (1 / 10) [0, 2] := by
    unfold Spaced
    norm_num
  exact ⟨by norm_num, nofun, hs, reading_interpolates (1 / 10) (1 / 2) [0, 2] (by norm_num) nofun hs⟩

end Sequence

end Dataflow
