import Dataflow.Proofs.Ranked

/-!
# Later slots override earlier ones

Slots that are put into a sequence in turn leave it with one slot for every key, in strictly ascending order, that holds what the last slot
under that key holds. This is so for keys of which two count as one only if they are the same number. What a sequence holds is then
determined by the last slot under every key, so it makes no difference to exchange sources that have no key in common.
-/

namespace Dataflow

open KeyArith

namespace KeyArith

variable {K R : Type} [KeyArith K] [LinearOrder R] {number : K → Prop} {rank : K → R} {a b c : K}

/-- Whether two keys are the same number. -/
def same (a b : K) : Bool := le a b && le b a

namespace Ranked

theorem same_iff (h : Ranked number rank) : same a b = true ↔ number a ∧ number b ∧ rank a = rank b := by
  rw [same, Bool.and_eq_true, h.le_iff, h.le_iff]
  constructor
  · rintro ⟨⟨ha, hb, hab⟩, -, -, hba⟩
    exact ⟨ha, hb, le_antisymm hab hba⟩
  · rintro ⟨ha, hb, hab⟩
    exact ⟨⟨ha, hb, hab.le⟩, hb, ha, hab.ge⟩

theorem same_refl (h : Ranked number rank) (ha : number a) : same a a = true := h.same_iff.2 ⟨ha, ha, rfl⟩

theorem same_comm (a b : K) : same a b = same b a := Bool.and_comm _ _

theorem same_trans (h : Ranked number rank) (hab : same a b = true) (hbc : same b c = true) : same a c = true := by
  obtain ⟨ha, -, hab⟩ := h.same_iff.1 hab
  obtain ⟨-, hc, hbc⟩ := h.same_iff.1 hbc
  exact h.same_iff.2 ⟨ha, hc, hab.trans hbc⟩

/-- Keys that are the same number are the same number as the same keys. -/
theorem same_congr (h : Ranked number rank) (hab : same a b = true) (c : K) : same a c = same b c := by
  rw [Bool.eq_iff_iff]
  exact ⟨h.same_trans (same_comm a b ▸ hab), h.same_trans hab⟩

theorem not_same_of_lt (h : Ranked number rank) (hab : lt a b = true) : same a b = false := by
  rw [← Bool.not_eq_true, h.same_iff]
  rintro ⟨-, -, he⟩
  exact (h.lt_iff.1 hab).2.2.ne he

theorem lt_of_same_of_lt (h : Ranked number rank) (hab : same a b = true) (hbc : lt b c = true) : lt a c = true :=
  h.lt_of_le_of_lt (Bool.and_eq_true _ _ ▸ hab).1 hbc

end Ranked

/-- Numbers of which two count as one exactly if they are the same. -/
structure Exact (number : K → Prop) (ε : K) (good : K → Prop) : Prop where
  number : ∀ {a}, good a → number a
  near : ∀ {a b}, good a → good b → Sequence.near ε a b = same a b

end KeyArith

namespace Sequence

variable {K R : Type} [KeyArith K] [LinearOrder R] {number good : K → Prop} {rank : K → R} {ε k : K} {x y z : Slot K}
  {src src' l l' : List (Slot K)}

/-- What a slot holds, whatever its key. -/
def content (x : Slot K) : EntryId × Option ProcessId := (x.entry, x.creator)

/-- The last of some slots under a key. -/
def lastUnder (k : K) (src : List (Slot K)) : Option (Slot K) := src.reverse.find? fun x => same x.key k

/-- A sequence in strictly ascending order, with one slot for every key that some slots have: with what the last of these holds. -/
structure LastWins (src l : List (Slot K)) : Prop where
  ordered : l.Pairwise fun y z => lt y.key z.key = true
  keys : ∀ y ∈ l, ∃ x ∈ src, y.key = x.key
  covers : ∀ x ∈ src, ∃ y ∈ l, same y.key x.key = true
  latest : ∀ y ∈ l, (lastUnder y.key src).map content = some (content y)

theorem lastUnder_append (k : K) (src src' : List (Slot K)) : lastUnder k (src ++ src') = (lastUnder k src').or (lastUnder k src) := by
  rw [lastUnder, List.reverse_append, List.find?_append]
  rfl

theorem lastUnder_singleton (k : K) (x : Slot K) : lastUnder k [x] = if same x.key k = true then some x else none := by
  rw [lastUnder, List.reverse_singleton, List.find?_singleton]

theorem lastUnder_eq_none (h : ∀ x ∈ src, same x.key k = false) : lastUnder k src = none :=
  List.find?_eq_none.2 fun x hx => Bool.eq_false_iff.1 (h x (List.mem_reverse.1 hx))

/-- The keys of a sequence ascend one by one when each is less than all that come after it. -/
theorem ascending_iff (h : Ranked number rank) : ascending l = true ↔ l.Pairwise fun y z => lt y.key z.key = true := by
  have htrans : IsTrans (Slot K) fun y z => lt y.key z.key = true := ⟨fun _ _ _ => h.lt_trans⟩
  rw [← List.isChain_iff_pairwise]
  induction l with
  | nil => simp [ascending]
  | cons s l ih =>
    rw [ascending_cons, List.isChain_cons]
    exact and_congr_right fun _ => ih

/-! ## One slot more -/

section Insert

variable (h : Ranked number rank) (he : Exact number ε good)

include h he

theorem Exact.apart : Apart ε good := by
  intro a b ha hb hnear hlt
  rw [he.near ha hb, ← Bool.not_eq_true, h.same_iff] at hnear
  rw [← Bool.not_eq_true, h.lt_iff] at hlt
  have hna := he.number ha
  have hnb := he.number hb
  exact h.lt_iff.2 ⟨hna, hnb, lt_of_le_of_ne (not_lt.1 fun hba => hlt ⟨hnb, hna, hba⟩) fun hab => hnear ⟨hna, hnb, hab⟩⟩

/-- A slot of a sequence with a slot put in was there under another key, or holds what was put in. -/
theorem of_mem_insert_sorted (hx : good x.key) (hl : ∀ z ∈ l, good z.key) (hord : l.Pairwise fun y z => lt y.key z.key = true)
    (hy : y ∈ (insert ε x l).1) : (y ∈ l ∧ same x.key y.key = false) ∨ (content y = content x ∧ same x.key y.key = true) := by
  induction l with
  | nil =>
    rw [insert, List.mem_singleton] at hy
    subst hy
    exact .inr ⟨rfl, h.same_refl (he.number hx)⟩
  | cons s l ih =>
    obtain ⟨hs, hord⟩ := List.pairwise_cons.1 hord
    have hsg := hl s List.mem_cons_self
    rw [insert] at hy
    split at hy
    · rename_i hnear
      rw [he.near hsg hx] at hnear
      have hxs : same x.key s.key = true := Ranked.same_comm s.key x.key ▸ hnear
      rcases List.mem_cons.1 hy with rfl | hy
      · exact .inr ⟨rfl, hxs⟩
      · exact .inl ⟨List.mem_cons_of_mem _ hy, h.not_same_of_lt (h.lt_of_same_of_lt hxs (hs y hy))⟩
    · rename_i hnear
      rw [he.near hsg hx, Ranked.same_comm] at hnear
      split at hy
      · rename_i hlt
        rcases List.mem_cons.1 hy with rfl | hy
        · exact .inr ⟨rfl, h.same_refl (he.number hx)⟩
        · refine .inl ⟨hy, h.not_same_of_lt ?_⟩
          rcases List.mem_cons.1 hy with rfl | hy
          · exact hlt
          · exact h.lt_trans hlt (hs y hy)
      · rcases List.mem_cons.1 hy with rfl | hy
        · exact .inl ⟨List.mem_cons_self, Bool.eq_false_iff.2 hnear⟩
        · exact (ih (fun z hz => hl z (List.mem_cons_of_mem _ hz)) hord hy).imp_left fun h => ⟨List.mem_cons_of_mem _ h.1, h.2⟩

/-- Putting a slot in gives its key a slot. -/
theorem exists_mem_insert (hx : good x.key) (hl : ∀ z ∈ l, good z.key) : ∃ y ∈ (insert ε x l).1, same y.key x.key = true := by
  induction l with
  | nil => exact ⟨x, List.mem_singleton_self x, h.same_refl (he.number hx)⟩
  | cons s l ih =>
    rw [insert]
    split
    · rename_i hnear
      rw [he.near (hl s List.mem_cons_self) hx] at hnear
      exact ⟨_, List.mem_cons_self, hnear⟩
    · split
      · exact ⟨x, List.mem_cons_self, h.same_refl (he.number hx)⟩
      · obtain ⟨y, hy, hyx⟩ := ih fun z hz => hl z (List.mem_cons_of_mem _ hz)
        exact ⟨y, List.mem_cons_of_mem _ hy, hyx⟩

end Insert

/-- Putting a slot in takes no key away. -/
theorem exists_mem_insert_of_mem (hz : z ∈ l) : ∃ y ∈ (insert ε x l).1, y.key = z.key := by
  induction l with
  | nil => cases hz
  | cons s l ih =>
    rw [insert]
    split
    · rcases List.mem_cons.1 hz with rfl | hz
      · exact ⟨_, List.mem_cons_self, rfl⟩
      · exact ⟨z, List.mem_cons_of_mem _ hz, rfl⟩
    · split
      · exact ⟨z, List.mem_cons_of_mem _ hz, rfl⟩
      · rcases List.mem_cons.1 hz with rfl | hz
        · exact ⟨z, List.mem_cons_self, rfl⟩
        · obtain ⟨y, hy, hyz⟩ := ih hz
          exact ⟨y, List.mem_cons_of_mem _ hy, hyz⟩

/-! ## One slot after the other -/

section Good

variable (h : Ranked number rank) (he : Exact number ε good)

include h he

/-- A sequence in which the last slots win stays so with one slot more. -/
theorem LastWins.insert (hw : LastWins src l) (hsrc : ∀ z ∈ src, good z.key) (hx : good x.key) :
    LastWins (src ++ [x]) (insert ε x l).1 := by
  have hl : ∀ z ∈ l, good z.key := fun z hz => by
    obtain ⟨s, hs, hk⟩ := hw.keys z hz
    exact hk ▸ hsrc s hs
  refine ⟨?_, fun y hy => ?_, fun z hz => ?_, fun y hy => ?_⟩
  · exact (ascending_iff h).1 (ascending_insert (Exact.apart h he) hx hl ((ascending_iff h).2 hw.ordered))
  · rcases key_of_mem_insert hy with hk | ⟨z, hz, hk⟩
    · exact ⟨x, List.mem_append_right _ (List.mem_singleton_self x), hk⟩
    · obtain ⟨s, hs, hk'⟩ := hw.keys z hz
      exact ⟨s, List.mem_append_left _ hs, hk.trans hk'⟩
  · rcases List.mem_append.1 hz with hz | hz
    · obtain ⟨y, hy, hyz⟩ := hw.covers z hz
      obtain ⟨y', hy', hk⟩ := exists_mem_insert_of_mem (ε := ε) (x := x) hy
      exact ⟨y', hy', hk ▸ hyz⟩
    · rw [List.mem_singleton.1 hz]
      exact exists_mem_insert h he hx hl
  · rw [lastUnder_append, lastUnder_singleton]
    rcases of_mem_insert_sorted h he hx hl hw.ordered hy with ⟨hyl, hxy⟩ | ⟨hc, hxy⟩
    · rw [hxy, if_neg Bool.false_ne_true, Option.none_or]
      exact hw.latest y hyl
    · rw [hxy, if_pos rfl, Option.some_or, hc]
      rfl

/-- Putting slots in one after the other lets the last ones win. -/
theorem LastWins.insertAll (hw : LastWins src l) {xs : List (Slot K)} (hsrc : ∀ z ∈ src ++ xs, good z.key) :
    LastWins (src ++ xs) (insertAll ε l xs) := by
  induction xs generalizing src l with
  | nil =>
    rw [List.append_nil]
    exact hw
  | cons x xs ih =>
    have hcons : src ++ x :: xs = (src ++ [x]) ++ xs := by simp
    rw [hcons] at hsrc ⊢
    have hx : good x.key := hsrc x (by simp)
    exact ih (hw.insert h he (fun z hz => hsrc z (by simp [hz])) hx) hsrc

end Good

/-- A slot that comes after all the others is put in at the end. -/
theorem insert_of_lt (h : Ranked number rank) (he : Exact number ε good) (hl : ∀ z ∈ l, good z.key) (hx : good x.key)
    (hlt : ∀ z ∈ l, lt z.key x.key = true) : (insert ε x l).1 = l ++ [x] := by
  induction l with
  | nil => rfl
  | cons s l ih =>
    have hs := hlt s List.mem_cons_self
    have hnear : ¬ near ε s.key x.key = true := by
      rw [he.near (hl s List.mem_cons_self) hx, h.not_same_of_lt hs]
      exact Bool.false_ne_true
    have hge : ¬ lt x.key s.key = true := fun hxs => by
      have hss := h.not_same_of_lt (h.lt_trans hs hxs)
      rw [h.same_refl (he.number (hl s List.mem_cons_self))] at hss
      cases hss
    rw [insert, if_neg hnear, if_neg hge]
    simp only [ih (fun z hz => hl z (List.mem_cons_of_mem _ hz)) fun z hz => hlt z (List.mem_cons_of_mem _ hz), List.cons_append]

/-- Putting slots in that come after all the others, in order, appends them. -/
theorem insertAll_of_sorted (h : Ranked number rank) (he : Exact number ε good) (hgood : ∀ z ∈ l ++ l', good z.key)
    (hord : (l ++ l').Pairwise fun y z => lt y.key z.key = true) : insertAll ε l l' = l ++ l' := by
  induction l' generalizing l with
  | nil => rw [insertAll_nil, List.append_nil]
  | cons x l' ih =>
    have hcons : l ++ x :: l' = (l ++ [x]) ++ l' := by simp
    have hx : (insert ε x l).1 = l ++ [x] := by
      refine insert_of_lt h he (fun z hz => hgood z (by simp [hz])) (hgood x (by simp)) fun z hz => ?_
      exact (List.pairwise_append.1 hord).2.2 z hz x List.mem_cons_self
    rw [hcons] at hgood hord ⊢
    rw [← ih hgood hord, ← hx]
    rfl

/-- Putting a slot in leaves all keys as they are, or brings its own. -/
theorem keys_insert (ε : K) (x : Slot K) (l : List (Slot K)) :
    (insert ε x l).1.map Slot.key = l.map Slot.key ∨ ∃ y ∈ (insert ε x l).1, y.key = x.key := by
  induction l with
  | nil => exact .inr ⟨x, List.mem_singleton_self x, rfl⟩
  | cons s l ih =>
    rw [insert]
    split
    · exact .inl rfl
    · split
      · exact .inr ⟨x, List.mem_cons_self, rfl⟩
      · rcases ih with ih | ⟨y, hy, hk⟩
        · exact .inl (congrArg (s.key :: ·) ih)
        · exact .inr ⟨y, List.mem_cons_of_mem _ hy, hk⟩

/-- What slots that are put in one after the other leave is in order, if its keys are exact. -/
theorem ascending_insertAll (h : Ranked number rank) (he : Exact number ε good) {xs : List (Slot K)}
    (hgood : ∀ z ∈ insertAll ε [] xs, good z.key) : ascending (insertAll ε [] xs) = true := by
  induction xs using List.reverseRecOn with
  | nil => rfl
  | append_singleton xs x ih =>
    rw [insertAll, List.foldl_append] at hgood ⊢
    change ∀ z ∈ (insert ε x (insertAll ε [] xs)).1, good z.key at hgood
    change ascending (insert ε x (insertAll ε [] xs)).1 = true
    have hgood' : ∀ z ∈ insertAll ε [] xs, good z.key := fun z hz => by
      obtain ⟨y, hy, hk⟩ := exists_mem_insert_of_mem (ε := ε) (x := x) hz
      exact hk ▸ hgood y hy
    rcases keys_insert ε x (insertAll ε [] xs) with hkeys | ⟨y, hy, hk⟩
    · have hord : ((insertAll ε [] xs).map Slot.key).Pairwise fun a b => lt a b = true := List.pairwise_map.2 ((ascending_iff h).1 (ih hgood'))
      rw [← hkeys] at hord
      exact (ascending_iff h).2 (List.pairwise_map.1 hord)
    · exact ascending_insert (Exact.apart h he) (hk ▸ hgood y hy) hgood' (ih hgood')

/-! ## What the last slots determine -/

/-- In a sequence in order every slot is the last under its key. -/
theorem lastUnder_of_sorted (h : Ranked number rank) (hy : number y.key) (hord : l.Pairwise fun y z => lt y.key z.key = true) (hmem : y ∈ l) :
    lastUnder y.key l = some y := by
  obtain ⟨front, rest, rfl⟩ := List.append_of_mem hmem
  have hrest : lastUnder y.key rest = none := lastUnder_eq_none fun z hz =>
    (Ranked.same_comm _ _).trans (h.not_same_of_lt ((List.pairwise_cons.1 (List.pairwise_append.1 hord).2.1).1 z hz))
  rw [lastUnder_append, ← List.singleton_append, lastUnder_append, hrest, Option.none_or, lastUnder_singleton, if_pos (h.same_refl hy),
    Option.some_or]

theorem lastWins_self (h : Ranked number rank) (hnum : ∀ y ∈ l, number y.key) (hord : l.Pairwise fun y z => lt y.key z.key = true) :
    LastWins l l :=
  ⟨hord, fun y hy => ⟨y, hy, rfl⟩, fun x hx => ⟨x, hx, h.same_refl (hnum x hx)⟩,
    fun y hy => by rw [lastUnder_of_sorted h (hnum y hy) hord hy, Option.map_some]⟩

/-- What a sequence holds may come again. -/
theorem LastWins.again (h : Ranked number rank) (hnum : ∀ y ∈ l, number y.key) (hw : LastWins src l) : LastWins (src ++ l) l := by
  refine ⟨hw.ordered, fun y hy => ⟨y, List.mem_append_right _ hy, rfl⟩, fun x hx => ?_, fun y hy => ?_⟩
  · rcases List.mem_append.1 hx with hx | hx
    · exact hw.covers x hx
    · exact ⟨x, hx, h.same_refl (hnum x hx)⟩
  · rw [lastUnder_append, lastUnder_of_sorted h (hnum y hy) hw.ordered hy, Option.some_or, Option.map_some]

/-- A slot alone is replaced by one under the same key. -/
theorem LastWins.replace (h : Ranked number rank) (hw : LastWins src [y]) (hyx : same y.key x.key = true) : LastWins (src ++ [x]) [x] := by
  have hx : number x.key := (h.same_iff.1 hyx).2.1
  refine ⟨List.pairwise_singleton _ _, fun z hz => ⟨x, by simp, by rw [List.mem_singleton.1 hz]⟩,
    fun z hz => ⟨x, List.mem_singleton_self x, ?_⟩, fun z hz => ?_⟩
  · rcases List.mem_append.1 hz with hz | hz
    · obtain ⟨y', hy', hyz⟩ := hw.covers z hz
      rw [List.mem_singleton.1 hy'] at hyz
      exact (h.same_congr hyx z.key).symm.trans hyz
    · rw [List.mem_singleton.1 hz]
      exact h.same_refl hx
  · obtain rfl := List.mem_singleton.1 hz
    rw [lastUnder_append, lastUnder_singleton, if_pos (h.same_refl hx), Option.some_or, Option.map_some]

/-- Slots of two sequences one by one hold the same, under the same numbers. -/
def Coincide (l l' : List (Slot K)) : Prop := List.Forall₂ (fun y z => same y.key z.key = true ∧ content y = content z) l l'

theorem of_lastUnder (hx : lastUnder k src = some x) : x ∈ src ∧ same x.key k = true :=
  ⟨List.mem_reverse.1 (List.mem_of_find?_eq_some hx), List.find?_some (p := fun x : Slot K => same x.key k) hx⟩

/-- Two sequences in which the last slots win coincide when the last slots under every key hold the same. -/
theorem LastWins.coincide (h : Ranked number rank) (hnum : ∀ x ∈ src, number x.key) (hnum' : ∀ x ∈ src', number x.key)
    (hw : LastWins src l) (hw' : LastWins src' l') (hlast : ∀ k, (lastUnder k src).map content = (lastUnder k src').map content) :
    Coincide l l' := by
  have hsub : ∀ {src src' l l' : List (Slot K)}, LastWins src l → LastWins src' l' →
      (∀ k, (lastUnder k src).map content = (lastUnder k src').map content) → ∀ y ∈ l, ∃ z ∈ l', same z.key y.key = true := by
    intro src src' l l' hw hw' hlast y hy
    obtain ⟨x, hx, -⟩ := Option.map_eq_some_iff.1 ((hlast y.key).symm.trans (hw.latest y hy))
    obtain ⟨hmem, hxy⟩ := of_lastUnder hx
    obtain ⟨z, hz, hzx⟩ := hw'.covers x hmem
    exact ⟨z, hz, h.same_trans hzx hxy⟩
  have hranks : ∀ {l : List (Slot K)}, l.Pairwise (fun y z => lt y.key z.key = true) → (l.map fun y => rank y.key).Pairwise (· < ·) :=
    fun hord => List.pairwise_map.2 (hord.imp fun hlt => (h.lt_iff.1 hlt).2.2)
  -- the ranks of the keys are the same set, and so the same sequence
  have heq : (l.map fun y => rank y.key) = l'.map fun y => rank y.key := by
    refine List.Pairwise.eq_of_mem_iff (hranks hw.ordered) (hranks hw'.ordered) fun r => ?_
    simp only [List.mem_map]
    constructor
    · rintro ⟨y, hy, rfl⟩
      obtain ⟨z, hz, hzy⟩ := hsub hw hw' hlast y hy
      exact ⟨z, hz, (h.same_iff.1 hzy).2.2⟩
    · rintro ⟨y, hy, rfl⟩
      obtain ⟨z, hz, hzy⟩ := hsub hw' hw (fun k => (hlast k).symm) y hy
      exact ⟨z, hz, (h.same_iff.1 hzy).2.2⟩
  have hfor := List.forall₂_map_left_iff.1 (List.forall₂_map_right_iff.1 (List.forall₂_eq_eq_eq (α := R) ▸ heq))
  obtain ⟨hlen, hzip⟩ := List.forall₂_iff_zip.1 hfor
  refine List.forall₂_iff_zip.2 ⟨hlen, fun {y z} hyz => ?_⟩
  obtain ⟨hy, hz⟩ := List.of_mem_zip hyz
  obtain ⟨a, ha, hya⟩ := hw.keys y hy
  obtain ⟨b, hb, hzb⟩ := hw'.keys z hz
  have hsame : same y.key z.key = true := h.same_iff.2 ⟨hya ▸ hnum a ha, hzb ▸ hnum' b hb, hzip hyz⟩
  have hcontent : lastUnder y.key src' = lastUnder z.key src' := by
    rw [lastUnder, lastUnder]
    refine List.find?_congr fun x _ => ?_
    rw [Ranked.same_comm x.key, h.same_congr hsame, Ranked.same_comm z.key]
  refine ⟨hsame, Option.some.inj ?_⟩
  rw [← hw.latest y hy, hlast, hcontent, hw'.latest z hz]

/-! ## Exchanging sources -/

section Exchange

variable {srcs srcs' : List (List (Slot K))}

/-- Two sources have no key in common. -/
def Strange (p q : List (Slot K)) : Prop := ∀ y ∈ p, ∀ z ∈ q, same y.key z.key = false

theorem Strange.symm {p q : List (Slot K)} (h : Strange p q) : Strange q p :=
  fun y hy z hz => (Ranked.same_comm y.key z.key).trans (h z hz y hy)

/-- Two neighbours among some sources, with no key in common, exchange their places. -/
inductive Exchange : List (List (Slot K)) → List (List (Slot K)) → Prop where
  | neighbours (front : List (List (Slot K))) (p q : List (Slot K)) (rest : List (List (Slot K))) (h : Strange p q) :
      Exchange (front ++ p :: q :: rest) (front ++ q :: p :: rest)

/-- Some sources in another order, in which those with a common key are still in the order that they had. -/
def Exchanged : List (List (Slot K)) → List (List (Slot K)) → Prop := Relation.ReflTransGen Exchange

theorem Exchanged.perm (he : Exchanged srcs srcs') : srcs.Perm srcs' := by
  induction he with
  | refl => exact .refl srcs
  | tail _ hex ih =>
    obtain ⟨front, p, q, rest, -⟩ := hex
    exact ih.trans ((List.Perm.swap q p rest).append_left front)

/-- Sources of which no two have a key in common may come in any order. -/
theorem exchanged_of_perm (hp : srcs.Perm srcs') (h : srcs.Pairwise Strange) : Exchanged srcs srcs' := by
  induction hp with
  | nil => exact .refl
  | cons p _ ih =>
    refine (ih (List.pairwise_cons.1 h).2).lift (p :: ·) ?_
    rintro _ _ ⟨front, q, r, rest, hqr⟩
    exact .neighbours (p :: front) q r rest hqr
  | swap p q rest => exact .single (.neighbours [] q p rest ((List.pairwise_cons.1 h).1 p List.mem_cons_self))
  | trans hp _ ih ih' => exact (ih h).trans (ih' ((hp.pairwise_iff Strange.symm).1 h))

/-- Exchanging sources leaves the last slot under every key. -/
theorem Exchanged.lastUnder_eq (h : Ranked number rank) (he : Exchanged srcs srcs') (k : K) :
    lastUnder k srcs.flatten = lastUnder k srcs'.flatten := by
  induction he with
  | refl => rfl
  | tail _ hex ih =>
    obtain ⟨front, p, q, rest, hpq⟩ := hex
    have hcomm : ∀ o, (lastUnder k q).or ((lastUnder k p).or o) = (lastUnder k p).or ((lastUnder k q).or o) := by
      rcases hp : lastUnder k p with _ | y <;> rcases hq : lastUnder k q with _ | z <;> try exact fun _ => rfl
      -- both have a slot under the key, and so a key in common
      obtain ⟨hy, hyk⟩ := of_lastUnder hp
      obtain ⟨hz, hzk⟩ := of_lastUnder hq
      have hyz := h.same_trans hyk (Ranked.same_comm z.key k ▸ hzk)
      rw [hpq y hy z hz] at hyz
      cases hyz
    rw [ih]
    simp only [List.flatten_append, List.flatten_cons, lastUnder_append, Option.or_assoc, hcomm]

end Exchange

end Sequence

end Dataflow
