import Dataflow.Proofs.Draft

/-!
# Keys that keep a sequence in order

A slot is put before the first one with a greater key, unless a key near its own comes first. That keeps a sequence in order when keys
that are not near one another can be told apart by their order. Every key that counts as one with itself is such a key; of the
single-precision floats these are the finite ones, as long as the tolerance is a number that is not negative.
-/

namespace Dataflow

open KeyArith

namespace Sequence

variable {K : Type} [KeyArith K] {ε : K} {x y : Slot K} {l : List (Slot K)}

/-- Of two keys that do not count as one, one is less than the other. -/
def Apart (ε : K) (good : K → Prop) : Prop := ∀ a b, good a → good b → near ε a b = false → lt b a = false → lt a b = true

theorem ascending_cons {s : Slot K} :
    ascending (s :: l) = true ↔ (∀ y ∈ l.head?, lt s.key y.key = true) ∧ ascending l = true := by
  rcases l with _ | ⟨y, l⟩
  · simp [ascending]
  · simp [ascending]

/-- Putting a slot in brings no key but its own. -/
theorem key_of_mem_insert (h : y ∈ (insert ε x l).1) : y.key = x.key ∨ ∃ z ∈ l, y.key = z.key := by
  induction l with
  | nil =>
    rw [insert, List.mem_singleton] at h
    exact .inl (congrArg Slot.key h)
  | cons s l ih =>
    rw [insert] at h
    split at h
    · rcases List.mem_cons.1 h with rfl | h
      · exact .inr ⟨s, List.mem_cons_self, rfl⟩
      · exact .inr ⟨y, List.mem_cons_of_mem _ h, rfl⟩
    · split at h
      · rcases List.mem_cons.1 h with rfl | h
        · exact .inl rfl
        · exact .inr ⟨y, h, rfl⟩
      · rcases List.mem_cons.1 h with rfl | h
        · exact .inr ⟨y, List.mem_cons_self, rfl⟩
        · rcases ih h with he | ⟨z, hz, he⟩
          · exact .inl he
          · exact .inr ⟨z, List.mem_cons_of_mem _ hz, he⟩

/-- The first key of a sequence with a slot put in is the slot's own or the one that was first. -/
theorem key_of_head_insert (h : y ∈ (insert ε x l).1.head?) : y.key = x.key ∨ ∃ z ∈ l.head?, y.key = z.key := by
  rcases l with _ | ⟨s, l⟩
  · cases h
    exact .inl rfl
  · rw [insert] at h
    split at h
    · cases h
      exact .inr ⟨s, rfl, rfl⟩
    · split at h
      · cases h
        exact .inl rfl
      · cases h
        exact .inr ⟨_, rfl, rfl⟩

/-- Among keys that are told apart by their order, putting a slot in keeps the order. -/
theorem ascending_insert {good : K → Prop} (ha : Apart ε good) (hx : good x.key) (hl : ∀ s ∈ l, good s.key) (h : ascending l = true) :
    ascending (insert ε x l).1 = true := by
  induction l with
  | nil => rfl
  | cons s l ih =>
    obtain ⟨hhead, htail⟩ := ascending_cons.1 h
    rw [insert]
    split
    · exact ascending_cons.2 ⟨hhead, htail⟩
    · rename_i hnear
      split
      · rename_i hlt
        refine ascending_cons.2 ⟨fun y hy => ?_, h⟩
        cases hy
        exact hlt
      · rename_i hlt
        refine ascending_cons.2 ⟨fun y hy => ?_, ih (fun s hs => hl s (List.mem_cons_of_mem _ hs)) htail⟩
        rcases key_of_head_insert hy with he | ⟨z, hz, he⟩
        · rw [he]
          exact ha _ _ (hl s List.mem_cons_self) hx (Bool.eq_false_iff.2 hnear) (Bool.eq_false_iff.2 hlt)
        · rw [he]
          exact hhead z hz

end Sequence

/-! ## Single-precision floats -/

namespace Float32

open Float.Model

variable {ε a b k : Float32}

/-- A number less itself is zero, unless it is infinite or not a number. -/
theorem sub_self (k : Float32) : k - k = if k.isFinite then 0 else .nan := by
  have hparts : ∀ u : UnpackedFloat, UnpackedFloat.sub .binary32 u u = if u.isFinite then .zero .positive else .notANumber := by
    intro u
    rcases u with s | _ | s | ⟨s, m, e, hm⟩
    · cases s <;> rfl
    · rfl
    · cases s <;> rfl
    · simp only [UnpackedFloat.sub, UnpackedFloat.isFinite, Int.sub_self, UnpackedFloat.normalize]
      rfl
  have hsub : k - k = ⟨.pack (UnpackedFloat.sub .binary32 k.toModel.unpack k.toModel.unpack)⟩ := rfl
  have hfinite : k.toModel.unpack.isFinite = k.isFinite := rfl
  rw [hsub, hparts, hfinite]
  split <;> decide

/-- A key counts as one with itself when it is finite and the tolerance is a number that is not negative. -/
theorem near_self_iff : Sequence.near ε k k = true ↔ k.isFinite = true ∧ 0 ≤ ε := by
  have hnear : Sequence.near ε k k = decide ((k - k).abs ≤ ε) := rfl
  have hzero : (0 : Float32).abs = 0 := by decide
  have hnan : Float32.nan.abs = .nan := by decide
  have hle : decide (Float32.nan ≤ ε) = false := rfl
  rw [hnear, sub_self]
  split
  · rename_i hk
    rw [hzero, decide_eq_true_eq]
    exact ⟨fun h => ⟨hk, h⟩, And.right⟩
  · rename_i hk
    rw [hnan, hle]
    exact ⟨nofun, fun h => absurd h.1 hk⟩

/-- Of two finite numbers one is less than the other, or they are the same, or both are zero. -/
theorem lt_or_lt {u v : UnpackedFloat} (hu : u.isFinite = true) (hv : v.isFinite = true) :
    u.lt v = true ∨ v.lt u = true ∨ u = v ∨ ∃ s t, u = .zero s ∧ v = .zero t := by
  rcases u with _ | _ | s | ⟨s, m, e, hm⟩
  · cases hu
  · cases hu
  · rcases v with _ | _ | t | ⟨t, n, f, hn⟩
    · cases hv
    · cases hv
    · exact .inr (.inr (.inr ⟨s, t, rfl, rfl⟩))
    · rcases t
      · exact .inr (.inl rfl)
      · exact .inl rfl
  · rcases v with _ | _ | t | ⟨t, n, f, hn⟩
    · cases hv
    · cases hv
    · rcases s
      · exact .inl rfl
      · exact .inr (.inl rfl)
    · have hswap : (compare f e).then (compare n m) = ((compare e f).then (compare m n)).swap := by
        rw [Ordering.swap_then, ← Std.OrientedCmp.eq_swap, ← Std.OrientedCmp.eq_swap]
      have heq : (compare e f).then (compare m n) = .eq → e = f ∧ m = n := by
        rw [Ordering.then_eq_eq, Std.compare_eq_iff_eq, Std.compare_eq_iff_eq]
        exact id
      -- numbers of one sign compare by exponent and mantissa, of two signs by these alone
      rcases s <;> rcases t
      · simp only [UnpackedFloat.lt, UnpackedFloat.compare, hswap]
        rcases hc : (compare e f).then (compare m n)
        · exact .inr (.inl rfl)
        · obtain ⟨rfl, rfl⟩ := heq hc
          exact .inr (.inr (.inl rfl))
        · exact .inl rfl
      · exact .inl rfl
      · exact .inr (.inl rfl)
      · simp only [UnpackedFloat.lt, UnpackedFloat.compare, hswap]
        rcases hc : (compare e f).then (compare m n)
        · exact .inl rfl
        · obtain ⟨rfl, rfl⟩ := heq hc
          exact .inr (.inr (.inl rfl))
        · exact .inr (.inl rfl)

theorem lt_eq (a b : Float32) : lt a b = a.toModel.unpack.lt b.toModel.unpack :=
  Bool.eq_iff_iff.2 (decide_eq_true_iff.trans decide_eq_true_iff)

/-- Keys that count as one with themselves, but not with each other, are told apart by their order. -/
theorem apart (ε : Float32) : Sequence.Apart ε fun k => Sequence.near ε k k = true := by
  intro a b ha hb hnear hlt
  obtain ⟨hfinite, hε⟩ := near_self_iff.1 ha
  have hab : a - b = ⟨.pack (UnpackedFloat.sub .binary32 a.toModel.unpack b.toModel.unpack)⟩ := rfl
  have hnear' : Sequence.near ε a b = decide ((a - b).abs ≤ ε) := rfl
  rcases lt_or_lt hfinite (near_self_iff.1 hb).1 with h | h | h | ⟨s, t, hs, ht⟩
  · exact (lt_eq a b).trans h
  · rw [lt_eq, h] at hlt
    cases hlt
  · -- what is the same is as near as it is to itself
    rw [hnear', hab, ← h] at hnear
    exact absurd (ha.symm.trans hnear) (by decide)
  · have hzero : ∀ s t, (⟨.pack (UnpackedFloat.sub .binary32 (.zero s) (.zero t))⟩ : Float32).abs = 0 := by
      rintro (_ | _) (_ | _) <;> decide
    rw [hnear', hab, hs, ht, hzero, decide_eq_true hε] at hnear
    cases hnear

/-- No key is less than itself. -/
theorem lt_irrefl (k : Float32) : lt k k = false := by
  have hlt : ∀ u : UnpackedFloat, u.lt u = false := by
    intro u
    rcases u with s | _ | s | ⟨s, m, e, hm⟩
    · cases s <;> rfl
    · rfl
    · rfl
    · cases s <;> simp [UnpackedFloat.lt, UnpackedFloat.compare]
  exact (lt_eq k k).trans (hlt _)

end Float32

end Dataflow
