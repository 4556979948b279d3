import Dataflow.Proofs.Overriding

/-!
# Merging lets the last source of every key win

A draft is made source by source: it borrows the first channel, copies before it adds to what it borrowed, starts anew from a slot or a
channel that is not merged with what it has, and lets a channel be that it borrowed already. Where the slots are of one type and their keys
are exact, all these ways come to one: the draft holds, for every key, what the last source under that key brings. Not to merge is right
then as well, as it replaces one slot by another under the same key.
-/

namespace Dataflow

open KeyArith Sequence

namespace Float32

variable {k : Float32}

theorem isNaN_of_isFinite (h : k.isFinite = true) : k.isNaN = false := by
  change k.toModel.unpack.isNaN = false
  change k.toModel.unpack.isFinite = true at h
  cases hk : k.toModel.unpack with
  | notANumber => rw [hk] at h; cases h
  | _ => rfl

/-- Keys that count as one with themselves, and with each other only if they are the same number, are exact. -/
theorem exact {ε : Float32} {good : Float32 → Prop} (hself : ∀ k, good k → near ε k k = true)
    (hdistinct : ∀ a b, good a → good b → same a b = true ∨ near ε a b = false) : Exact (fun k : Float32 => k.isNaN = false) ε good where
  number ha := isNaN_of_isFinite (near_self_iff.1 (hself _ ha)).1
  near {a b} ha hb := by
    rcases hs : same a b with _ | _
    · rcases hdistinct a b ha hb with h | h
      · rw [hs] at h
        cases h
      · exact h
    · -- of what is the same neither is less
      have hba : lt b a = false := by
        rw [← Bool.not_eq_true]
        intro h
        rw [Ranked.same_comm, ranked.not_same_of_lt h] at hs
        cases hs
      by_contra hnear
      have hab := apart ε a b (hself a ha) (hself b hb) (Bool.not_eq_true _ ▸ hnear) hba
      rw [ranked.not_same_of_lt hab] at hs
      cases hs

end Float32

namespace Store

variable {s : Store} {a b : List (Slot Float32)} {x : Slot Float32} {t : DataType} {good : Float32 → Prop} {fs : List Feed} {d : Draft}

theorem firstType?_of_forall (ht : ∀ y ∈ a, s.typeAt? y.entry = some t) (hne : a ≠ []) : s.firstType? a = some t := by
  obtain ⟨y, l, rfl⟩ := List.exists_cons_of_ne_nil hne
  exact ht y List.mem_cons_self

/-- Sequences of one type are merged unless each is one slot, under keys that count as one. -/
theorem of_mergesSlots_eq_false (ha : ∀ y ∈ a, s.typeAt? y.entry = some t) (hb : ∀ y ∈ b, s.typeAt? y.entry = some t)
    (h : s.mergesSlots a b = false) : ∃ x y, a = [x] ∧ b = [y] ∧ near s.tolerance x.key y.key = true := by
  unfold mergesSlots at h
  split at h
  · cases h
  · rename_i hlen
    have htypes : s.firstType? a = s.firstType? b := by
      rcases a with _ | ⟨x, a⟩ <;> rcases b with _ | ⟨y, b⟩
      · rfl
      · exact absurd (Nat.succ_ne_zero _).symm hlen
      · exact absurd (Nat.succ_ne_zero _) hlen
      · rw [firstType?_of_forall ha nofun, firstType?_of_forall hb nofun]
    rw [if_neg fun hne => hne htypes] at h
    split at h
    · exact ⟨_, _, rfl, rfl, by simpa using h⟩
    · cases h

/-- A slot is added to a sequence of its type unless that is one slot, under a key that counts as its own. -/
theorem of_mergesOne_eq_false (ha : ∀ y ∈ a, s.typeAt? y.entry = some t) (hx : s.typeAt? x.entry = some t) (h : s.mergesOne a x = false) :
    ∃ y, a = [y] ∧ near s.tolerance y.key x.key = true := by
  unfold mergesOne at h
  split at h
  · rw [firstType?_of_forall ha nofun, hx, if_neg (fun hne => hne rfl)] at h
    exact ⟨_, rfl, by simpa using h⟩
  · cases h

/-- The channel that a draft borrows shows its slots. -/
def Borrows (s : Store) (d : Draft) : Prop := ∀ c, d.lender = some c → d.slots = s.slots c

/-- One more source in order, of the same type and with exact keys, lets the last source of every key win. -/
theorem lastWins_merge {src : List (Slot Float32)} {d₀ : Draft} {f : Feed} (he : Exact (fun k : Float32 => k.isNaN = false) s.tolerance good)
    (hw : LastWins src d₀.slots) (hb : s.Borrows d₀) (hsrc : ∀ y ∈ src, good y.key) (ht : ∀ y ∈ d₀.slots, s.typeAt? y.entry = some t)
    (hgood : ∀ y ∈ s.feedSlots f, good y.key) (htype : ∀ y ∈ s.feedSlots f, s.typeAt? y.entry = some t)
    (hself : LastWins (s.feedSlots f) (s.feedSlots f)) (hd : s.merge (some d₀) f = some d) : LastWins (src ++ s.feedSlots f) d.slots := by
  have hgood₀ : ∀ y ∈ d₀.slots, good y.key := fun y hy => by
    obtain ⟨x, hx, hk⟩ := hw.keys y hy
    exact hk ▸ hsrc x hx
  have howned : s.owned d₀ = d₀.slots := by
    rw [owned]
    split
    · exact insertAll_of_sorted Float32.ranked he hgood₀ hw.ordered
    · rfl
  have hadd : LastWins (src ++ s.feedSlots f) (insertAll s.tolerance (s.owned d₀) (s.feedSlots f)) := by
    rw [howned]
    exact hw.insertAll Float32.ranked he fun z hz => (List.mem_append.1 hz).elim (hsrc z) (hgood z)
  have hreplace : ∀ {x y}, d₀.slots = [x] → s.feedSlots f = [y] → near s.tolerance x.key y.key = true →
      LastWins (src ++ s.feedSlots f) (s.feedSlots f) := fun {x y} hx hy hnear => by
    rw [he.near (hgood₀ x (by simp [hx])) (hgood y (by simp [hy]))] at hnear
    rw [hx] at hw
    rw [hy]
    exact hw.replace Float32.ranked hnear
  rcases f with c | x
  · rw [merge] at hd
    split at hd
    · -- the channel that is borrowed already
      rename_i hlend
      obtain rfl := Option.some.inj hd
      rw [show s.feedSlots (.channel c) = d₀.slots from (hb c hlend).symm]
      exact hw.again Float32.ranked fun y hy => he.number (hgood₀ y hy)
    · split at hd
      · cases hd
        exact hadd
      · rename_i hm
        cases hd
        obtain ⟨x, y, hx, hy, hnear⟩ := of_mergesSlots_eq_false ht htype (Bool.eq_false_iff.2 hm)
        exact hreplace hx hy hnear
  · rw [merge] at hd
    split at hd
    · cases hd
      exact hadd
    · rename_i hm
      cases hd
      obtain ⟨y, hy, hnear⟩ := of_mergesOne_eq_false ht (htype x (List.mem_singleton_self x)) (Bool.eq_false_iff.2 hm)
      exact hreplace hy rfl hnear

/-- A draft that borrows no channel has slots that were put in one after the other. -/
theorem exists_insertAll_of_draft (hd : s.draft fs = some d) (hl : d.lender = none) : ∃ xs, d.slots = insertAll s.tolerance [] xs := by
  induction fs using List.reverseRecOn generalizing d with
  | nil => cases hd
  | append_singleton fs f ih =>
    have howned : ∀ d₀, s.draft fs = some d₀ → ∀ l, ∃ xs, insertAll s.tolerance (s.owned d₀) l = insertAll s.tolerance [] xs := by
      intro d₀ hd₀ l
      obtain ⟨xs, hxs⟩ : ∃ xs, s.owned d₀ = insertAll s.tolerance [] xs := by
        rw [owned]
        split
        · exact ⟨_, rfl⟩
        · rename_i hsome
          exact ih hd₀ (Option.not_isSome_iff_eq_none.1 hsome)
      exact ⟨xs ++ l, by rw [hxs, insertAll, insertAll, insertAll, List.foldl_append]⟩
    rw [draft_append] at hd
    rcases hd₀ : s.draft fs with _ | d₀ <;> rw [hd₀] at hd <;> rcases f with c | x <;> rw [merge] at hd
    · cases hd
      cases hl
    · cases hd
      exact ⟨[x], rfl⟩
    · split at hd
      · rename_i hlend
        cases hd
        rw [hlend] at hl
        cases hl
      · split at hd <;> cases hd
        · exact howned d₀ hd₀ _
        · cases hl
    · split at hd <;> cases hd
      · exact howned d₀ hd₀ _
      · exact ⟨[x], rfl⟩

/-- A draft of sources in order, of one type and with exact keys, lets the last source of every key win. -/
theorem lastWins_draft (he : Exact (fun k : Float32 => k.isNaN = false) s.tolerance good)
    (hgood : ∀ f ∈ fs, ∀ y ∈ s.feedSlots f, good y.key) (hord : ∀ f ∈ fs, ascending (s.feedSlots f) = true)
    (htype : ∀ f ∈ fs, ∀ y ∈ s.feedSlots f, s.typeAt? y.entry = some t) (hd : s.draft fs = some d) :
    LastWins (fs.flatMap s.feedSlots) d.slots := by
  induction fs using List.reverseRecOn generalizing d with
  | nil => cases hd
  | append_singleton fs f ih =>
    have hfront : ∀ f' ∈ fs, f' ∈ fs ++ [f] := fun _ => List.mem_append_left _
    have hlast : f ∈ fs ++ [f] := List.mem_append_right _ (List.mem_singleton_self f)
    have hself : LastWins (s.feedSlots f) (s.feedSlots f) :=
      lastWins_self Float32.ranked (fun y hy => he.number (hgood f hlast y hy)) ((ascending_iff Float32.ranked).1 (hord f hlast))
    rw [List.flatMap_append, List.flatMap_singleton]
    rw [draft_append] at hd
    rcases hd₀ : s.draft fs with _ | d₀ <;> rw [hd₀] at hd
    · -- the first source
      obtain rfl := (draft_eq_none_iff s).1 hd₀
      rcases f with c | x <;> cases hd <;> exact hself
    · refine lastWins_merge he (ih (fun f' hf' => hgood f' (hfront f' hf')) (fun f' hf' => hord f' (hfront f' hf'))
        (fun f' hf' => htype f' (hfront f' hf')) hd₀) (fun c hc => (of_lender hd₀ hc).2) (fun y hy => ?_) (fun y hy => ?_)
        (hgood f hlast) (htype f hlast) hself hd
      · obtain ⟨f', hf', hy⟩ := List.mem_flatMap.1 hy
        exact hgood f' (hfront f' hf') y hy
      · obtain ⟨f', hf', x, hx, hxy, -⟩ := of_mem_draft hd₀ hy
        rw [hxy]
        exact htype f' (hfront f' hf') x hx

end Store

end Dataflow
