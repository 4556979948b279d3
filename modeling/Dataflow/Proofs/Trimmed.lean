import Dataflow.Text
import Mathlib.Data.List.DropRight
import Mathlib.Data.List.Forall2

/-!
# What trimming, cutting and splitting answer

Each operation on texts is determined by what it answers: the trimmed text is the only one that neither starts nor ends with a
blank and makes up the text with blanks around it, a cut is the only one whose front lacks the separator, and so on. The grammars
are read and written with these characterizations, so nothing after this module follows the recursion of an operation again.
-/

namespace Dataflow

variable {u v w cs ds a b : List Char} {c d sep : Char}

/-! ## Blanks -/

/-- A text of blanks. -/
def Blank (cs : List Char) : Prop := ∀ c ∈ cs, isBlank c = true

/-- A text that neither starts nor ends with a blank. -/
def Tight (cs : List Char) : Prop := (∀ c ∈ cs.head?, isBlank c = false) ∧ ∀ c ∈ cs.getLast?, isBlank c = false

/-- A text without a blank. -/
def Solid (cs : List Char) : Prop := ∀ c ∈ cs, isBlank c = false

instance (cs : List Char) : Decidable (Blank cs) := List.decidableBAll _ cs

instance (cs : List Char) : Decidable (Solid cs) := List.decidableBAll _ cs

theorem Blank.nil : Blank [] := by
  intro c hc
  cases hc

theorem Blank.singleton (hc : isBlank c = true) : Blank [c] := by
  intro d hd
  rw [List.mem_singleton.1 hd]
  exact hc

theorem Blank.append (hu : Blank u) (hv : Blank v) : Blank (u ++ v) := by
  intro c hc
  rcases List.mem_append.1 hc with h | h
  · exact hu c h
  · exact hv c h

/-- A character that is no blank is not in a blank text. -/
theorem Blank.not_mem (hw : Blank w) (hc : isBlank c = false) : c ∉ w := by
  intro hm
  rw [hw c hm] at hc
  cases hc

/-- A text of blanks avoids all characters that are no blanks. -/
theorem Blank.avoids {stops : List Char} (hw : Blank w) (hstops : Solid stops) : ∀ c ∈ w, c ∉ stops := by
  intro c hc hm
  exact hw.not_mem (hstops c hm) hc

/-- Blanks around a text bring none of the characters that it avoids. -/
theorem padded_avoids {stops : List Char} (hu : Blank u) (hv : Blank v) (hstops : Solid stops) (hcs : ∀ c ∈ cs, c ∉ stops) :
    ∀ c ∈ u ++ cs ++ v, c ∉ stops := by
  intro c hc
  rcases List.mem_append.1 hc with hc | hc
  · rcases List.mem_append.1 hc with hc | hc
    · exact hu.avoids hstops c hc
    · exact hcs c hc
  · exact hv.avoids hstops c hc

theorem Tight.nil : Tight [] := by simp [Tight]

theorem Solid.singleton (hc : isBlank c = false) : Solid [c] := by
  intro d hd
  rw [List.mem_singleton.1 hd]
  exact hc

theorem Solid.tight (h : Solid cs) : Tight cs :=
  ⟨fun c hc => h c (List.mem_of_mem_head? hc), fun c hc => h c (List.mem_of_getLast? hc)⟩

/-- A text between two characters that are no blanks is tight. -/
theorem tight_enclosed (hc : isBlank c = false) (hd : isBlank d = false) : Tight (c :: cs ++ [d]) := by
  constructor
  · intro e he
    cases he
    exact hc
  · intro e he
    rw [List.getLast?_concat] at he
    cases he
    exact hd

/-! ## Trimming -/

/-- Trimming the start takes blanks away and nothing else. -/
theorem exists_trimStart (cs : List Char) : ∃ u, Blank u ∧ cs = u ++ trimStart cs :=
  ⟨cs.takeWhile isBlank, fun _ hc => List.mem_takeWhile_imp hc, List.takeWhile_append_dropWhile.symm⟩

/-- Trimming the end takes blanks away and nothing else. -/
theorem exists_trimEnd (cs : List Char) : ∃ v, Blank v ∧ cs = trimEnd cs ++ v := by
  obtain ⟨u, hu, he⟩ := exists_trimStart cs.reverse
  refine ⟨u.reverse, fun c hc => hu c (List.mem_reverse.1 hc), ?_⟩
  calc cs = cs.reverse.reverse := (List.reverse_reverse cs).symm
    _ = (u ++ trimStart cs.reverse).reverse := congrArg List.reverse he
    _ = trimEnd cs ++ u.reverse := List.reverse_append

/-- Blanks in front do not survive trimming the start. -/
theorem trimStart_append (hu : Blank u) : trimStart (u ++ cs) = trimStart cs := List.dropWhile_append_of_pos hu

/-- Blanks behind do not survive trimming the end. -/
theorem trimEnd_append (hv : Blank v) : trimEnd (cs ++ v) = trimEnd cs := by
  unfold trimEnd
  rw [List.reverse_append, List.dropWhile_append_of_pos fun c hc => hv c (List.mem_reverse.1 hc)]

/-- Trimming the start changes exactly the texts that start with a blank. -/
theorem trimStart_eq_self_iff : trimStart cs = cs ↔ ∀ c ∈ cs.head?, isBlank c = false := by
  cases cs with
  | nil => simp [trimStart]
  | cons c cs => simp [trimStart, List.dropWhile_eq_self_iff]

/-- Trimming the end changes exactly the texts that end with a blank. -/
theorem trimEnd_eq_self_iff : trimEnd cs = cs ↔ ∀ c ∈ cs.getLast?, isBlank c = false := by
  have hrev : trimEnd cs = cs ↔ trimStart cs.reverse = cs.reverse := by
    unfold trimEnd trimStart
    rw [List.reverse_eq_iff]
  rw [hrev, trimStart_eq_self_iff, List.head?_reverse]

/-- Behind a character that is no blank the end is trimmed alone. -/
theorem trimEnd_append_of_getLast? (h : ∀ c ∈ a.getLast?, isBlank c = false) : trimEnd (a ++ b) = a ++ trimEnd b := by
  have hb : ∀ c ∈ (trimEnd b).getLast?, isBlank c = false := trimEnd_eq_self_iff.1 (List.rdropWhile_idempotent _ _)
  obtain ⟨v, hv, he⟩ := exists_trimEnd b
  conv_lhs => rw [he, ← List.append_assoc, trimEnd_append hv]
  rw [trimEnd_eq_self_iff]
  intro c hc
  rw [List.getLast?_append] at hc
  rcases Option.or_eq_some_iff.1 hc with hc | ⟨-, hc⟩
  · exact hb c hc
  · exact h c hc

/-- What is left at the end starts like the text. -/
theorem head?_trimEnd (hc : c ∈ (trimEnd cs).head?) : c ∈ cs.head? := by
  obtain ⟨v, -, hv⟩ := exists_trimEnd cs
  rw [hv, List.head?_append, hc]
  rfl

/-- A trimmed text neither starts nor ends with a blank. -/
theorem tight_trim (cs : List Char) : Tight (trim cs) := by
  constructor
  · intro c hc
    have hself : trimStart (trimStart cs) = trimStart cs := List.dropWhile_idempotent _ _
    exact trimStart_eq_self_iff.1 hself c (head?_trimEnd hc)
  · have hself : trimEnd (trim cs) = trim cs := List.rdropWhile_idempotent _ _
    exact trimEnd_eq_self_iff.1 hself

/-- Trimming takes blanks away on both sides and nothing else. -/
theorem exists_trim (cs : List Char) : ∃ u v, Blank u ∧ Blank v ∧ cs = u ++ trim cs ++ v := by
  obtain ⟨u, hu, h1⟩ := exists_trimStart cs
  obtain ⟨v, hv, h2⟩ := exists_trimEnd (trimStart cs)
  exact ⟨u, v, hu, hv, by rw [List.append_assoc, trim, ← h2, ← h1]⟩

/-- A tight text is left of itself with blanks around it. -/
theorem trim_append_append (hu : Blank u) (hv : Blank v) (h : Tight ds) : trim (u ++ ds ++ v) = ds := by
  have hstart : trimEnd (trimStart (ds ++ v)) = trimEnd ds := by
    cases ds with
    | nil =>
      rw [List.nil_append, ← List.append_nil v, trimStart_append hv]
      rfl
    | cons c ds =>
      have hhead : ∀ d ∈ (c :: ds ++ v).head?, isBlank d = false := h.1
      rw [trimStart_eq_self_iff.2 hhead, trimEnd_append hv]
  rw [trim, List.append_assoc, trimStart_append hu, hstart, trimEnd_eq_self_iff.2 h.2]

/-- The trimmed text is the tight text that makes up the text with blanks around it. -/
theorem trim_eq_iff : trim cs = ds ↔ Tight ds ∧ ∃ u v, Blank u ∧ Blank v ∧ cs = u ++ ds ++ v := by
  constructor
  · rintro rfl
    exact ⟨tight_trim cs, exists_trim cs⟩
  · rintro ⟨h, u, v, hu, hv, rfl⟩
    exact trim_append_append hu hv h

/-- Trimming changes exactly the texts that are not tight. -/
theorem trim_eq_self_iff : trim cs = cs ↔ Tight cs := by
  constructor
  · intro h
    exact h ▸ tight_trim cs
  · intro h
    simpa using trim_append_append Blank.nil Blank.nil h

/-- Nothing is left of exactly the texts of blanks. -/
theorem trim_eq_nil_iff : trim cs = [] ↔ Blank cs := by
  rw [trim_eq_iff]
  constructor
  · rintro ⟨-, u, v, hu, hv, rfl⟩
    exact (hu.append Blank.nil).append hv
  · intro h
    exact ⟨Tight.nil, cs, [], h, Blank.nil, by simp⟩

/-- Blanks around a text do not survive trimming. -/
theorem trim_padded (hu : Blank u) (hv : Blank v) : trim (u ++ cs ++ v) = trim cs := by
  obtain ⟨u', v', hu', hv', he⟩ := exists_trim cs
  refine trim_eq_iff.2 ⟨tight_trim cs, u ++ u', v' ++ v, hu.append hu', hv'.append hv, ?_⟩
  conv_lhs => rw [he]
  simp only [List.append_assoc]

/-- A text that ends in no blank loses the blanks in front of it. -/
theorem trim_append_of_getLast? (ha : ¬ Blank a) (hd : isBlank d = false) :
    trim (a ++ b ++ [d]) = trimStart a ++ b ++ [d] := by
  obtain ⟨u, hu, he⟩ := exists_trimStart a
  have hne : trimStart a ≠ [] := by
    intro hnil
    rw [hnil, List.append_nil] at he
    exact ha (he ▸ hu)
  refine trim_eq_iff.2 ⟨⟨?_, ?_⟩, u, [], hu, Blank.nil, ?_⟩
  · intro c hc
    rw [List.append_assoc, List.head?_append_of_ne_nil _ hne] at hc
    exact trimStart_eq_self_iff.1 (List.dropWhile_idempotent _ _) c hc
  · intro c hc
    rw [List.getLast?_concat] at hc
    cases hc
    exact hd
  · conv_lhs => rw [he]
    simp

/-- What stands between blanks is that with blanks around it. -/
theorem mem_trim_or_isBlank (h : c ∈ cs) : c ∈ trim cs ∨ isBlank c = true := by
  obtain ⟨u, v, hu, hv, he⟩ := exists_trim cs
  rw [he] at h
  rcases List.mem_append.1 h with h | h
  · rcases List.mem_append.1 h with h | h
    · exact Or.inr (hu c h)
    · exact Or.inl h
  · exact Or.inr (hv c h)

theorem mem_of_mem_trim (h : c ∈ trim cs) : c ∈ cs := by
  obtain ⟨u, v, -, -, he⟩ := exists_trim cs
  rw [he]
  exact List.mem_append_left _ (List.mem_append_right _ h)

/-! ## Joining, cutting and splitting -/

/-- A joined list holds the items of its parts and of the separator. -/
theorem mem_of_mem_intercalate {α : Type} {x : α} {seps : List α} {parts : List (List α)} (h : x ∈ seps.intercalate parts) :
    x ∈ seps ∨ ∃ part ∈ parts, x ∈ part := by
  induction parts with
  | nil => cases h
  | cons part parts ih =>
    cases parts with
    | nil =>
      rw [List.intercalate_singleton] at h
      exact Or.inr ⟨part, List.mem_cons_self .., h⟩
    | cons part' parts =>
      rw [List.intercalate_cons_cons] at h
      rcases List.mem_append.1 h with h | h
      · rcases List.mem_append.1 h with h | h
        · exact Or.inr ⟨part, List.mem_cons_self .., h⟩
        · exact Or.inl h
      · rcases ih h with h | ⟨q, hq, h⟩
        · exact Or.inl h
        · exact Or.inr ⟨q, List.mem_cons_of_mem _ hq, h⟩

/-- Joining loses no item of a part. -/
theorem mem_intercalate_of_mem {α : Type} {x : α} {seps part : List α} {parts : List (List α)} (hpart : part ∈ parts)
    (hx : x ∈ part) : x ∈ seps.intercalate parts := by
  induction parts with
  | nil => cases hpart
  | cons first parts ih =>
    cases parts with
    | nil =>
      rw [List.intercalate_singleton]
      exact List.mem_singleton.1 hpart ▸ hx
    | cons second parts =>
      rw [List.intercalate_cons_cons, List.append_assoc]
      rcases List.mem_cons.1 hpart with rfl | hpart
      · exact List.mem_append_left _ hx
      · exact List.mem_append_right _ (List.mem_append_right _ (ih hpart))

/-- A cut is at the separator with none in front of it. -/
theorem cutAt_eq_some_iff : cutAt sep cs = some (a, b) ↔ cs = a ++ sep :: b ∧ sep ∉ a := by
  constructor
  · intro h
    exact ⟨eq_of_cutAt h, not_mem_of_cutAt h⟩
  · rintro ⟨rfl, hsep⟩
    induction a with
    | nil => simp [cutAt]
    | cons c a ih =>
      obtain ⟨hc, ha⟩ := not_or.1 (fun h => hsep (List.mem_cons.2 h))
      rw [List.cons_append, cutAt, if_neg (Ne.symm hc), ih ha]
      rfl

/-- There is no cut exactly in the texts without the separator. -/
theorem cutAt_eq_none_iff : cutAt sep cs = none ↔ sep ∉ cs := by
  induction cs with
  | nil => simp [cutAt]
  | cons c cs ih =>
    rw [cutAt, List.mem_cons, not_or]
    split
    · next he => simp [he]
    · next he => rw [Option.map_eq_none_iff, ih, and_iff_right (Ne.symm he)]

theorem splitAll_eq_splitOn (sep : Char) (cs : List Char) : splitAll sep cs = cs.splitOn sep := by
  induction cs with
  | nil => rfl
  | cons c cs ih =>
    obtain ⟨part, parts, hparts⟩ : ∃ part parts, cs.splitOn sep = part :: parts :=
      List.exists_cons_of_ne_nil (List.splitOn_ne_nil _ _)
    rw [splitAll, List.splitOn_cons_eq_if_modifyHead, ih, hparts]
    simp only [beq_iff_eq, List.modifyHead_cons]

/-- A text without the separator is one stretch. -/
theorem splitAll_of_not_mem (h : sep ∉ cs) : splitAll sep cs = [cs] := by
  rw [splitAll_eq_splitOn, List.splitOn_eq_singleton h]

/-- What stands in front of a separator and holds none is a stretch. -/
theorem splitAll_append_cons (h : sep ∉ a) : splitAll sep (a ++ sep :: b) = a :: splitAll sep b := by
  rw [splitAll_eq_splitOn, List.splitOn_append_cons_self, List.splitOn_eq_singleton h, ← splitAll_eq_splitOn]
  rfl

/-- No stretch holds the separator, and the stretches hold nothing but the text's characters. -/
theorem mem_of_mem_splitAll {part : List Char} (hpart : part ∈ splitAll sep cs) (hc : c ∈ part) : c ∈ cs ∧ c ≠ sep := by
  induction cs generalizing part with
  | nil =>
    rw [splitAll, List.mem_singleton] at hpart
    subst hpart
    cases hc
  | cons d cs ih =>
    obtain ⟨first, rest, hsplit⟩ : ∃ first rest, splitAll sep cs = first :: rest :=
      List.exists_cons_of_ne_nil (splitAll_eq_splitOn sep cs ▸ List.splitOn_ne_nil _ _)
    rw [splitAll, hsplit] at hpart
    split at hpart
    · rcases List.mem_cons.1 hpart with rfl | h
      · cases hc
      · exact (ih (hsplit ▸ h) hc).imp_left (List.mem_cons_of_mem d)
    · next hd =>
      rcases List.mem_cons.1 hpart with rfl | h
      · rcases List.mem_cons.1 hc with rfl | hfirst
        · exact ⟨List.mem_cons_self .., hd⟩
        · exact (ih (hsplit ▸ List.mem_cons_self ..) hfirst).imp_left (List.mem_cons_of_mem d)
      · exact (ih (hsplit ▸ List.mem_cons_of_mem _ h) hc).imp_left (List.mem_cons_of_mem d)

/-- Every character but the separator stands in a stretch. -/
theorem exists_mem_splitAll (h : c ∈ cs) (hc : c ≠ sep) : ∃ part ∈ splitAll sep cs, c ∈ part := by
  have hjoin : [sep].intercalate (splitAll sep cs) = cs := by
    rw [splitAll_eq_splitOn, List.intercalate_splitOn]
  rcases mem_of_mem_intercalate (hjoin.symm ▸ h) with h | h
  · exact absurd (List.mem_singleton.1 h) hc
  · exact h

/-! ## What encloses a text -/

theorem dropLast?_eq_some_iff : dropLast? c cs = some ds ↔ cs = ds ++ [c] := by
  unfold dropLast?
  constructor
  · intro h
    split at h
    · next hlast => rw [← Option.some.inj h, List.dropLast_append_getLast? c hlast]
    · cases h
  · rintro rfl
    simp

theorem enclosed?_eq_some_iff : enclosed? c d cs = some ds ↔ cs = c :: ds ++ [d] := by
  cases cs with
  | nil => simp [enclosed?]
  | cons e cs =>
    rw [enclosed?, List.cons_append, List.cons.injEq]
    split
    · next he => rw [dropLast?_eq_some_iff, and_iff_right he]
    · next he => simp [he]

theorem avoids_iff {stops : List Char} : avoids stops cs = true ↔ ∀ c ∈ cs, c ∉ stops := by
  simp [avoids]

/-! ## Words and lists of parts -/

/-- A word that avoids some characters has a character, no blank, and none of them. -/
theorem word_iff {stops : List Char} :
    (!cs.isEmpty && cs.all (!isBlank ·) && avoids stops cs) = true ↔ cs ≠ [] ∧ Solid cs ∧ ∀ c ∈ cs, c ∉ stops := by
  rw [Bool.and_eq_true, Bool.and_eq_true, avoids_iff, and_assoc]
  simp [Solid]

/-- Reading a list answers when every part is read, with the answers in order. -/
theorem mapM_eq_some_iff {α β : Type} {f : α → Option β} {xs : List α} {ys : List β} :
    xs.mapM f = some ys ↔ List.Forall₂ (fun x y => f x = some y) xs ys := by
  induction xs generalizing ys with
  | nil => simp [eq_comm]
  | cons x xs ih =>
    rw [List.mapM_cons, List.forall₂_cons_left_iff]
    cases hx : f x <;> cases hxs : xs.mapM f <;> simp_all [← ih, eq_comm]

/-- Every answer of a list is read from one of its parts. -/
theorem exists_of_mem_mapM {α β : Type} {f : α → Option β} {xs : List α} {ys : List β} {y : β} (h : xs.mapM f = some ys)
    (hy : y ∈ ys) : ∃ x ∈ xs, f x = some y := by
  have hall := mapM_eq_some_iff.1 h
  clear h
  induction hall with
  | nil => cases hy
  | cons hx _ ih =>
    rcases List.mem_cons.1 hy with rfl | hy
    · exact ⟨_, List.mem_cons_self .., hx⟩
    · obtain ⟨x, hmem, he⟩ := ih hy
      exact ⟨x, List.mem_cons_of_mem _ hmem, he⟩

/-- Every part of a list that is read is read. -/
theorem exists_of_mapM {α β : Type} {f : α → Option β} {xs : List α} {ys : List β} {x : α} (h : xs.mapM f = some ys)
    (hx : x ∈ xs) : ∃ y, f x = some y := by
  have hall := mapM_eq_some_iff.1 h
  clear h
  induction hall with
  | nil => cases hx
  | cons hy _ ih =>
    rcases List.mem_cons.1 hx with rfl | hx
    · exact ⟨_, hy⟩
    · exact ih hx

/-- An answer without its error is there exactly if there was no error. -/
theorem toOption_eq_some_iff {ε α : Type} {r : Except ε α} {x : α} : r.toOption = some x ↔ r = .ok x := by
  cases r <;> simp [Except.toOption]

end Dataflow
