import Dataflow.Proofs.Keys

/-!
# Keys that compare by rank

Comparing two keys comes down to comparing ranks in a linear order, for keys that are numbers; no other key compares with any. Rational
numbers are their own ranks. A single-precision float is ranked by its sign, then by its exponent and then by its mantissa, where the latter
two count the other way round below zero; the zeros have one rank, and the infinities the outermost.
-/

namespace Dataflow

open KeyArith

/-- The keys that are numbers compare as their ranks do, and no others compare. -/
structure KeyArith.Ranked {K R : Type} [KeyArith K] [LinearOrder R] (number : K → Prop) (rank : K → R) : Prop where
  le_iff : ∀ {a b}, le a b = true ↔ number a ∧ number b ∧ rank a ≤ rank b
  lt_iff : ∀ {a b}, lt a b = true ↔ number a ∧ number b ∧ rank a < rank b

namespace KeyArith.Ranked

variable {K R : Type} [KeyArith K] [LinearOrder R] {number : K → Prop} {rank : K → R} {a b c : K}

theorem lt_trans (h : Ranked number rank) (hab : lt a b = true) (hbc : lt b c = true) : lt a c = true := by
  obtain ⟨ha, -, hab⟩ := h.lt_iff.1 hab
  obtain ⟨-, hc, hbc⟩ := h.lt_iff.1 hbc
  exact h.lt_iff.2 ⟨ha, hc, hab.trans hbc⟩

theorem le_of_lt (h : Ranked number rank) (hab : lt a b = true) : le a b = true := by
  obtain ⟨ha, hb, hab⟩ := h.lt_iff.1 hab
  exact h.le_iff.2 ⟨ha, hb, hab.le⟩

theorem le_trans (h : Ranked number rank) (hab : le a b = true) (hbc : le b c = true) : le a c = true := by
  obtain ⟨ha, -, hab⟩ := h.le_iff.1 hab
  obtain ⟨-, hc, hbc⟩ := h.le_iff.1 hbc
  exact h.le_iff.2 ⟨ha, hc, hab.trans hbc⟩

theorem lt_of_le_of_lt (h : Ranked number rank) (hab : le a b = true) (hbc : lt b c = true) : lt a c = true := by
  obtain ⟨ha, -, hab⟩ := h.le_iff.1 hab
  obtain ⟨-, hc, hbc⟩ := h.lt_iff.1 hbc
  exact h.lt_iff.2 ⟨ha, hc, hab.trans_lt hbc⟩

/-- Of two numbers one is at most the other, or greater. -/
theorem le_eq_not_lt (h : Ranked number rank) (ha : number a) (hb : number b) : le a b = !lt b a := by
  rw [Bool.eq_iff_iff, h.le_iff, Bool.not_eq_true', ← Bool.not_eq_true, h.lt_iff]
  simp only [ha, hb, true_and, not_lt]

end KeyArith.Ranked

/-! ## Rational numbers -/

instance : KeyArith ℚ where
  sub a b := a - b
  div a b := a / b
  abs a := |a|
  lt a b := a < b
  le a b := a ≤ b
  zero := 0
  one := 1

namespace KeyArith

variable (a b : ℚ)

theorem rat_sub : sub a b = a - b := rfl

theorem rat_div : div a b = a / b := rfl

theorem rat_lt : lt a b = decide (a < b) := rfl

theorem rat_le : le a b = decide (a ≤ b) := rfl

theorem rat_zero : (zero : ℚ) = 0 := rfl

theorem rat_one : (one : ℚ) = 1 := rfl

end KeyArith

theorem Rat.ranked : KeyArith.Ranked (fun _ : ℚ => True) id where
  le_iff := decide_eq_true_iff.trans (by simp)
  lt_iff := decide_eq_true_iff.trans (by simp)

/-! ## Single-precision floats -/

namespace Float32

open Float.Model

/-- The rank of a float among the numbers. -/
def rankOf : UnpackedFloat → ℤ ×ₗ ℤ ×ₗ ℤ
  | .infinity .positive => toLex (2, toLex (0, 0))
  | .infinity .negative => toLex (-2, toLex (0, 0))
  | .finite .positive m e _ => toLex (1, toLex (e, m))
  | .finite .negative m e _ => toLex (-1, toLex (-e, -m))
  | .zero _ | .notANumber => toLex (0, toLex (0, 0))

theorem compare_toLex (s a b c d : ℤ) :
    compare (toLex (s, toLex (a, b)) : ℤ ×ₗ ℤ ×ₗ ℤ) (toLex (s, toLex (c, d))) = (compare a c).then (compare b d) := by
  simp [Prod.Lex.compare_def, compareLex, compareOn]

theorem compare_neg (a b : ℤ) : compare (-a) (-b) = (compare a b).swap := by
  rw [← Std.OrientedCmp.eq_swap]
  simp [compare, compareOfLessAndEq, eq_comm]

theorem compare_cast (m n : ℕ) : compare (m : ℤ) n = compare m n := by
  simp [compare, compareOfLessAndEq]

/-- Floats compare by rank, unless one is not a number. -/
theorem compare_eq (u v : UnpackedFloat) :
    u.compare v = if u.isNaN || v.isNaN then none else some (compare (rankOf u) (rankOf v)) := by
  -- the sign decides, or that one is not a number, except between two numbers of one sign that are not zero
  rcases u with (_ | _) | _ | s | ⟨_ | _, m, e, hm⟩ <;> rcases v with (_ | _) | _ | t | ⟨_ | _, n, f, hn⟩ <;> try rfl
  · have hrank : compare (rankOf (.finite .negative m e hm)) (rankOf (.finite .negative n f hn)) =
        ((compare e f).then (compare m n)).swap := by
      rw [rankOf, rankOf, compare_toLex, compare_neg, compare_neg, compare_cast, Ordering.swap_then]
    exact congrArg some hrank.symm
  · have hrank : compare (rankOf (.finite .positive m e hm)) (rankOf (.finite .positive n f hn)) =
        (compare e f).then (compare m n) := by
      rw [rankOf, rankOf, compare_toLex, compare_cast]
    exact congrArg some hrank.symm

theorem le_eq (a b : Float32) : le a b = a.toModel.unpack.le b.toModel.unpack :=
  Bool.eq_iff_iff.2 (decide_eq_true_iff.trans decide_eq_true_iff)

theorem ranked : KeyArith.Ranked (fun k : Float32 => k.isNaN = false) fun k => rankOf k.toModel.unpack where
  le_iff {a b} := by
    change le a b = true ↔ a.toModel.unpack.isNaN = false ∧ b.toModel.unpack.isNaN = false ∧ _
    rw [le_eq, UnpackedFloat.le, compare_eq]
    cases a.toModel.unpack.isNaN <;> cases b.toModel.unpack.isNaN <;> simp [Ordering.isLE_iff_ne_gt, compare_le_iff_le]
  lt_iff {a b} := by
    change lt a b = true ↔ a.toModel.unpack.isNaN = false ∧ b.toModel.unpack.isNaN = false ∧ _
    rw [lt_eq, UnpackedFloat.lt, compare_eq]
    cases a.toModel.unpack.isNaN <;> cases b.toModel.unpack.isNaN <;> simp [compare_lt_iff_lt]

end Float32

end Dataflow
