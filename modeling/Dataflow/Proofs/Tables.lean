import Mathlib
import Dataflow.Channel.Map

/-!
# Tables: lookups, listings and tallies

Laws of tables that the rest of the development uses. Lookups after a change are told by a case distinction on keys; a listing
of a table that has a key is, up to order, the key with its value followed by the listing without it; and a tally adds up a
number for every item of a table, so that inserting or erasing an item changes it by the item's own number.
-/

namespace Dataflow

namespace Table

/-! ## Lookups -/

section Lookup

variable {κ β γ : Type} {cmp : κ → κ → Ordering} [Std.TransCmp cmp] [Std.LawfulEqCmp cmp]

theorem get_insert [DecidableEq κ] (t : Std.ExtTreeMap κ β cmp) (k a : κ) (v : β) :
    (t.insert k v)[a]? = if a = k then some v else t[a]? := by
  simp only [Std.ExtTreeMap.getElem?_insert, Std.LawfulEqCmp.compare_eq_iff_eq, @eq_comm _ k]

theorem get_erase [DecidableEq κ] (t : Std.ExtTreeMap κ β cmp) (k a : κ) :
    (t.erase k)[a]? = if a = k then none else t[a]? := by
  simp only [Std.ExtTreeMap.getElem?_erase, Std.LawfulEqCmp.compare_eq_iff_eq, @eq_comm _ k]

theorem get_modify [DecidableEq κ] (t : Std.ExtTreeMap κ β cmp) (k a : κ) (f : β → β) :
    (t.modify k f)[a]? = if a = k then t[a]?.map f else t[a]? := by
  simp only [Std.ExtTreeMap.getElem?_modify, Std.LawfulEqCmp.compare_eq_iff_eq]
  by_cases h : k = a
  · simp [h]
  · simp [h, Ne.symm h]

/-- Changing some objects of a table, where changing one twice is like changing it once. -/
theorem get_foldl_modify [DecidableEq κ] {f : β → β} (hf : ∀ x, f (f x) = f x) (l : List κ) (t : Std.ExtTreeMap κ β cmp) (a : κ) :
    (l.foldl (fun t k => t.modify k f) t)[a]? = if a ∈ l then t[a]?.map f else t[a]? := by
  induction l generalizing t with
  | nil => simp
  | cons k l ih =>
    rw [List.foldl_cons, ih, get_modify]
    by_cases hk : a = k
    · subst hk
      by_cases hl : a ∈ l
      · simp only [hl, if_true, List.mem_cons_self, Option.map_map]
        exact congrArg (Option.map · _) (funext hf)
      · simp [hl]
    · simp [hk]

theorem get_alter [DecidableEq κ] (t : Std.ExtTreeMap κ β cmp) (k a : κ) (f : Option β → Option β) :
    (t.alter k f)[a]? = if a = k then f t[a]? else t[a]? := by
  simp only [Std.ExtTreeMap.getElem?_alter, Std.LawfulEqCmp.compare_eq_iff_eq]
  by_cases h : k = a
  · simp [h]
  · simp [h, Ne.symm h]

/-- The values of a table stand in the order of its listing. -/
theorem values_eq {κ β : Type} {cmp : κ → κ → Ordering} [Std.TransCmp cmp] (t : Std.ExtTreeMap κ β cmp) : t.values = t.toList.map (·.2) := by
  obtain ⟨⟨q⟩⟩ := t
  induction q using Quotient.ind with
  | _ m =>
    change m.inner.values = (Std.DTreeMap.Internal.Impl.Const.toList m.inner).map (·.2)
    rw [Std.DTreeMap.Internal.Impl.values_eq_map_snd, Std.DTreeMap.Internal.Impl.Const.toList_eq_toListModel_map]
    simp

theorem mem_values {t : Std.ExtTreeMap κ β cmp} {v : β} : v ∈ t.values ↔ ∃ k : κ, t[k]? = some v := by
  rw [values_eq, List.mem_map]
  constructor
  · rintro ⟨⟨k, w⟩, hm, rfl⟩
    exact ⟨k, Std.ExtTreeMap.mem_toList_iff_getElem?_eq_some.1 hm⟩
  · rintro ⟨k, hk⟩
    exact ⟨(k, v), Std.ExtTreeMap.mem_toList_iff_getElem?_eq_some.2 hk, rfl⟩

theorem mem_keys {t : Std.ExtTreeMap κ β cmp} {k : κ} : k ∈ t.keys ↔ ∃ v, t[k]? = some v := by
  rw [Std.ExtTreeMap.mem_keys, Std.ExtTreeMap.mem_iff_isSome_getElem?, Option.isSome_iff_exists]

theorem nodup_toList {κ β : Type} {cmp : κ → κ → Ordering} [Std.TransCmp cmp] (t : Std.ExtTreeMap κ β cmp) : t.toList.Nodup :=
  List.Nodup.of_map (·.1) (by rw [Std.ExtTreeMap.map_fst_toList_eq_keys]; exact Std.ExtTreeMap.nodup_keys)

/-- A listing begins, up to order, with any item of the table. -/
theorem toList_perm [DecidableEq κ] {t : Std.ExtTreeMap κ β cmp} {k : κ} {v : β} (h : t[k]? = some v) :
    t.toList.Perm ((k, v) :: (t.erase k).toList) := by
  have hk : (k, v) ∉ (t.erase k).toList := by
    rw [Std.ExtTreeMap.mem_toList_iff_getElem?_eq_some, get_erase, if_pos rfl]
    simp
  rw [List.perm_ext_iff_of_nodup (nodup_toList t) (List.nodup_cons.2 ⟨hk, nodup_toList _⟩)]
  rintro ⟨a, w⟩
  rw [List.mem_cons, Std.ExtTreeMap.mem_toList_iff_getElem?_eq_some, Std.ExtTreeMap.mem_toList_iff_getElem?_eq_some, get_erase]
  by_cases ha : a = k
  · subst ha
    rw [h, if_pos rfl]
    simp [eq_comm]
  · rw [if_neg ha]
    simp [ha]

theorem size_eq_of_get [DecidableEq κ] {t : Std.ExtTreeMap κ β cmp} {k : κ} {v : β} (h : t[k]? = some v) :
    t.size = (t.erase k).size + 1 := by
  rw [← Std.ExtTreeMap.length_toList, (toList_perm h).length_eq, List.length_cons, Std.ExtTreeMap.length_toList]

end Lookup

/-! ## Tallies -/

section Tally

variable {α : Type}

/-- The sum of a number for every item of a table. -/
def tally (t : IdMap α) (f : Nat → α → Nat) : Nat := (t.toList.map fun e => f e.1 e.2).sum

/-- An item accounts for its own number in a tally. -/
theorem tally_erase {t : IdMap α} {k : Nat} {v : α} (f : Nat → α → Nat) (h : t[k]? = some v) :
    tally t f = f k v + tally (t.erase k) f := by
  have hp := (toList_perm h).map fun e => f e.1 e.2
  rw [tally, hp.sum_eq, List.map_cons, List.sum_cons]
  rfl

/-- A key accounts for its own number in a tally, if it has an item. -/
theorem tally_eq_add_erase (t : IdMap α) (k : Nat) (f : Nat → α → Nat) :
    tally t f = ((t[k]?).map (f k)).getD 0 + tally (t.erase k) f := by
  rcases h : t[k]? with _ | v
  · have : t.erase k = t := by
      refine Std.ExtTreeMap.ext_getElem? fun {a} => ?_
      rw [get_erase]
      split
      · rename_i ha
        rw [ha, h]
      · rfl
    rw [this]
    exact (Nat.zero_add _).symm
  · exact tally_erase f h

theorem tally_insert_new {t : IdMap α} {k : Nat} (v : α) (f : Nat → α → Nat) (h : t[k]? = none) :
    tally (t.insert k v) f = f k v + tally t f := by
  have hk : (t.insert k v)[k]? = some v := by rw [get_insert, if_pos rfl]
  have he : (t.insert k v).erase k = t := by
    refine Std.ExtTreeMap.ext_getElem? fun {a} => ?_
    rw [get_erase, get_insert]
    by_cases ha : a = k
    · rw [if_pos ha, ha, h]
    · rw [if_neg ha, if_neg ha]
  rw [tally_erase f hk, he]

/-- Replacing an item replaces its number. -/
theorem tally_insert {t : IdMap α} {k : Nat} {v : α} (w : α) (f : Nat → α → Nat) (h : t[k]? = some v) :
    tally (t.insert k w) f + f k v = tally t f + f k w := by
  have hk : (t.insert k w)[k]? = some w := by rw [get_insert, if_pos rfl]
  have he : (t.insert k w).erase k = t.erase k := by
    refine Std.ExtTreeMap.ext_getElem? fun {a} => ?_
    rw [get_erase, get_erase, get_insert]
    by_cases ha : a = k
    · rw [if_pos ha, if_pos ha]
    · rw [if_neg ha, if_neg ha, if_neg ha]
  rw [tally_erase f hk, he, tally_erase f h]
  omega

/-- A tally is zero when every item counts for nothing. -/
theorem tally_eq_zero {t : IdMap α} {f : Nat → α → Nat} : tally t f = 0 ↔ ∀ k v, t[k]? = some v → f k v = 0 := by
  rw [tally, List.sum_eq_zero_iff]
  constructor
  · intro h k v hk
    exact h _ (List.mem_map.2 ⟨(k, v), Std.ExtTreeMap.mem_toList_iff_getElem?_eq_some.2 hk, rfl⟩)
  · intro h n hn
    obtain ⟨⟨k, v⟩, hm, rfl⟩ := List.mem_map.1 hn
    exact h k v (Std.ExtTreeMap.mem_toList_iff_getElem?_eq_some.1 hm)

theorem tally_pos {t : IdMap α} {f : Nat → α → Nat} : 0 < tally t f ↔ ∃ k v, t[k]? = some v ∧ 0 < f k v := by
  rw [Nat.pos_iff_ne_zero, ne_eq, tally_eq_zero]
  push Not
  simp only [Nat.pos_iff_ne_zero]

/-- Tallies that count the same for every key are equal. -/
theorem tally_ext {t t' : IdMap α} {f f' : Nat → α → Nat}
    (h : ∀ k : Nat, ((t[k]?).map (f k)).getD 0 = ((t'[k]?).map (f' k)).getD 0) : tally t f = tally t' f' := by
  induction hn : t.size generalizing t t' with
  | zero =>
    have hempty : ∀ k : Nat, t[k]? = none := by
      intro k
      rcases hk : t[k]? with _ | v
      · rfl
      · have := size_eq_of_get hk
        omega
    have hzero : tally t' f' = 0 := tally_eq_zero.2 fun k v hk => by
      have := h k
      rw [hempty, hk] at this
      exact this.symm
    rw [hzero]
    exact tally_eq_zero.2 fun k v hk => by rw [hempty] at hk; cases hk
  | succ n ih =>
    obtain ⟨k, hk⟩ : ∃ k : Nat, (t[k]?).isSome := by
      refine Classical.byContradiction fun hne => ?_
      have : t = ∅ := Std.ExtTreeMap.ext_getElem? fun {k} => by
        rw [Std.ExtTreeMap.getElem?_empty]
        exact Option.not_isSome_iff_eq_none.1 fun hk => hne ⟨k, hk⟩
      rw [this] at hn
      cases hn
    obtain ⟨v, hv⟩ := Option.isSome_iff_exists.1 hk
    have hrest : tally (t.erase k) f = tally (t'.erase k) f' := by
      refine ih (fun a => ?_) ?_
      · rw [get_erase, get_erase]
        split
        · rfl
        · exact h a
      · have := size_eq_of_get hv
        omega
    rw [tally_eq_add_erase t k, tally_eq_add_erase t' k, h k, hrest]

end Tally

end Table

/-! ## Tables of pairs -/

/-- Of the pairs for one name the last counts; a name without one keeps what the table had. -/
theorem get_foldl_insert {α : Type} (l : List (String × α)) (t : NameMap α) (x : String) :
    (l.foldl (fun t (name, v) => t.insert name v) t)[x]? = ((l.reverse.find? (·.1 == x)).map (·.2)).or t[x]? := by
  induction l generalizing t with
  | nil => simp
  | cons e l ih =>
    obtain ⟨name, v⟩ := e
    rw [List.foldl_cons, ih, Table.get_insert, List.reverse_cons, List.find?_append]
    cases l.reverse.find? (fun e => e.1 == x) with
    | none =>
      by_cases h : x = name
      · simp [h]
      · simp [h, Ne.symm h]
    | some w => simp

theorem get_tableOf {α : Type} (l : List (String × α)) (x : String) :
    (tableOf l)[x]? = (l.reverse.find? (·.1 == x)).map (·.2) := by
  rw [tableOf, get_foldl_insert, Std.ExtTreeMap.getElem?_empty, Option.or_none]

/-- A table of pairs that give the name one value at most gives it that. -/
theorem mem_of_get_tableOf {α : Type} {l : List (String × α)} {x : String} {v : α} (h : (tableOf l)[x]? = some v) : (x, v) ∈ l := by
  rw [get_tableOf] at h
  obtain ⟨e, he, rfl⟩ := Option.map_eq_some_iff.1 h
  have := List.find?_some he
  have hx : e.1 = x := by simpa using this
  exact hx ▸ List.mem_reverse.1 (List.mem_of_find?_eq_some he)

theorem get_tableOf_of_mem {α : Type} {l : List (String × α)} {x : String} {o : Option α} (h : ∀ v, (x, v) ∈ l ↔ o = some v) :
    (tableOf l)[x]? = o := by
  rw [get_tableOf]
  rcases hf : l.reverse.find? (fun e => e.1 == x) with _ | ⟨y, v⟩ <;> rw [hf]
  · rcases ho : o with _ | v
    · rfl
    · have := List.find?_eq_none.1 hf _ (List.mem_reverse.2 ((h v).2 ho))
      simp at this
  · have hy : y = x := by simpa using List.find?_some hf
    have hm : (y, v) ∈ l := List.mem_reverse.1 (List.mem_of_find?_eq_some hf)
    rw [hy] at hm
    exact ((h v).1 hm).symm

/-- Where two lists of pairs follow each other, the later one counts first. -/
theorem get_tableOf_append {α : Type} (a b : List (String × α)) (x : String) :
    (tableOf (a ++ b))[x]? = (tableOf b)[x]?.or (tableOf a)[x]? := by
  rw [get_tableOf, get_tableOf, get_tableOf, List.reverse_append, List.find?_append]
  cases b.reverse.find? (fun e => e.1 == x) with
  | none => rfl
  | some w => rfl

/-! ## Sets of names -/

theorem mem_unionNames {a b : NameSet} {x : String} : x ∈ unionNames a b ↔ x ∈ a ∨ x ∈ b := by
  rw [unionNames, Std.ExtTreeSet.mem_insertMany_list]
  simp

theorem mem_foldl_unionNames {l : List NameSet} {a : NameSet} {x : String} :
    x ∈ l.foldl unionNames a ↔ x ∈ a ∨ ∃ b ∈ l, x ∈ b := by
  induction l generalizing a with
  | nil => simp
  | cons b l ih => rw [List.foldl_cons, ih, mem_unionNames]; simp [or_assoc]

theorem mem_unionAll {l : List NameSet} {x : String} : x ∈ unionAll l ↔ ∃ b ∈ l, x ∈ b := by
  rw [unionAll, mem_foldl_unionNames]
  simp

/-! ## Tables of parameters -/

namespace ParamTable

/-- The parameters that a name depends on; none when the table does not have the name. -/
def paramsOf (t : ParamTable) (x : String) : NameSet := (t[x]?).getD ∅

theorem paramsOf_eq {t : ParamTable} {x : String} {ps : NameSet} (h : t[x]? = some ps) : t.paramsOf x = ps := by
  rw [paramsOf, h, Option.getD_some]

theorem mem_add {t : ParamTable} {name y : String} {ps : NameSet} : y ∈ t.add name ps ↔ y = name ∨ y ∈ t := by
  rw [add, Std.ExtTreeMap.mem_insert, Std.LawfulEqCmp.compare_eq_iff_eq, @eq_comm _ name]

theorem mem_paramsOf_add {t : ParamTable} {name y q : String} {ps : NameSet} :
    q ∈ (t.add name ps).paramsOf y ↔ q ∈ t.paramsOf y ∨ y = name ∧ q ∈ ps := by
  rw [add, paramsOf, Table.get_insert]
  by_cases h : y = name
  · subst h
    simp [mem_unionNames, paramsOf]
  · simp [h, paramsOf]

theorem mem_foldl_add {l : List (String × NameSet)} {t : ParamTable} {y : String} :
    y ∈ l.foldl (fun t (name, ps) => add t name ps) t ↔ y ∈ t ∨ ∃ ps, (y, ps) ∈ l := by
  induction l generalizing t with
  | nil => simp
  | cons e l ih =>
    obtain ⟨name, ps⟩ := e
    rw [List.foldl_cons, ih, mem_add]
    constructor
    · rintro ((rfl | h) | ⟨p, h⟩)
      · exact .inr ⟨ps, List.mem_cons_self ..⟩
      · exact .inl h
      · exact .inr ⟨p, List.mem_cons_of_mem _ h⟩
    · rintro (h | ⟨p, h⟩)
      · exact .inl (.inr h)
      · rcases List.mem_cons.1 h with h | h
        · exact .inl (.inl (congrArg Prod.fst h))
        · exact .inr ⟨p, h⟩

theorem mem_paramsOf_foldl_add {l : List (String × NameSet)} {t : ParamTable} {y q : String} :
    q ∈ (l.foldl (fun t (name, ps) => add t name ps) t).paramsOf y ↔
      q ∈ t.paramsOf y ∨ ∃ ps, (y, ps) ∈ l ∧ q ∈ ps := by
  induction l generalizing t with
  | nil => simp
  | cons e l ih =>
    obtain ⟨name, ps⟩ := e
    rw [List.foldl_cons, ih, mem_paramsOf_add]
    constructor
    · rintro ((h | ⟨rfl, h⟩) | ⟨p, h, hq⟩)
      · exact .inl h
      · exact .inr ⟨ps, List.mem_cons_self .., h⟩
      · exact .inr ⟨p, List.mem_cons_of_mem _ h, hq⟩
    · rintro (h | ⟨p, h, hq⟩)
      · exact .inl (.inl h)
      · rcases List.mem_cons.1 h with h | h
        · obtain ⟨rfl, rfl⟩ := Prod.mk.inj h
          exact .inl (.inr ⟨rfl, hq⟩)
        · exact .inr ⟨p, h, hq⟩

theorem mem_merge {t o : ParamTable} {y : String} : y ∈ t.merge o ↔ y ∈ t ∨ y ∈ o := by
  rw [merge, mem_foldl_add]
  simp only [Std.ExtTreeMap.mem_toList_iff_getElem?_eq_some, Std.ExtTreeMap.mem_iff_isSome_getElem?,
    Option.isSome_iff_exists]

theorem mem_paramsOf_merge {t o : ParamTable} {y q : String} :
    q ∈ (t.merge o).paramsOf y ↔ q ∈ t.paramsOf y ∨ q ∈ o.paramsOf y := by
  rw [merge, mem_paramsOf_foldl_add]
  simp only [Std.ExtTreeMap.mem_toList_iff_getElem?_eq_some]
  constructor
  · rintro (h | ⟨ps, h, hq⟩)
    · exact .inl h
    · exact .inr (by rwa [paramsOf_eq h])
  · rintro (h | h)
    · exact .inl h
    · rcases ho : o[y]? with _ | ps
      · rw [paramsOf, ho] at h
        exact absurd h (by simp)
      · exact .inr ⟨ps, rfl, by rwa [paramsOf_eq ho] at h⟩

/-- The parameters of a table are those that some name depends on. -/
theorem mem_all {t : ParamTable} {q : String} : q ∈ t.all ↔ ∃ x, q ∈ t.paramsOf x := by
  rw [all, mem_unionAll]
  simp only [Table.mem_values]
  constructor
  · rintro ⟨ps, ⟨x, hx⟩, hq⟩
    exact ⟨x, by rwa [paramsOf_eq hx]⟩
  · rintro ⟨x, hq⟩
    rcases hx : t[x]? with _ | ps
    · rw [paramsOf, hx] at hq
      exact absurd hq (by simp)
    · exact ⟨ps, ⟨x, hx⟩, by rwa [paramsOf_eq hx] at hq⟩

end ParamTable

end Dataflow
