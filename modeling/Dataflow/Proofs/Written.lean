import Dataflow.Naming.Filter
import Dataflow.Proofs.Trimmed

/-!
# Written mappings and filters read back

What a filter reads from a text does not depend on the blanks in it: a text is a row of words and punctuation, its tokens, and the
reader meets the same tokens whatever blanks stand between them. The written form of a filter is the row of its tokens without
any blank, so it reads back, and so does every text that spaces it out.

A name in a table may hold parentheses, brackets and `=`, which part the layers around the table. That is harmless: the table is
cut at the first opening and at the last closing parenthesis of the text, and no keyword holds the one, no table ends in the other.
-/

namespace Dataflow

/-! ## Texts that space out a row of tokens -/

/-- The text holds the tokens in order, with nothing but blanks in front of each and behind the last. -/
inductive Spaced : List (List Char) → List Char → Prop
  | blanks {w : List Char} (hw : Blank w) : Spaced [] w
  | token {w t cs : List Char} {ts : List (List Char)} (hw : Blank w) (h : Spaced ts cs) : Spaced (t :: ts) (w ++ t ++ cs)

namespace Spaced

variable {ts us : List (List Char)} {t cs v : List Char} {c sep : Char}

/-- Tokens that follow each other without a blank. -/
theorem flatten (ts : List (List Char)) : Spaced ts ts.flatten := by
  induction ts with
  | nil => exact .blanks Blank.nil
  | cons t ts ih => exact .token Blank.nil ih

/-- A row of no tokens leaves blanks. -/
theorem blank (h : Spaced [] cs) : Blank cs := by
  cases h with
  | blanks hw => exact hw

/-- More blanks at the end. -/
theorem append_blank (h : Spaced ts cs) (hv : Blank v) : Spaced ts (cs ++ v) := by
  induction h with
  | blanks hw => exact .blanks (hw.append hv)
  | token hw _ ih =>
    rw [List.append_assoc]
    exact .token hw ih

/-- A row is spaced out part by part. -/
theorem of_append (h : Spaced (ts ++ us) cs) : ∃ x y, cs = x ++ y ∧ Spaced ts x ∧ Spaced us y := by
  induction ts generalizing cs with
  | nil => exact ⟨[], cs, rfl, .blanks Blank.nil, h⟩
  | cons t ts ih =>
    cases h with
    | token hw h =>
      obtain ⟨x, y, rfl, hx, hy⟩ := ih h
      exact ⟨_, y, (List.append_assoc ..).symm, .token hw hx, hy⟩

/-- A row with a single character as a token parts the text there. -/
theorem of_separated (h : Spaced (ts ++ [c] :: us) cs) : ∃ x y, cs = x ++ c :: y ∧ Spaced ts x ∧ Spaced us y := by
  obtain ⟨x, y, rfl, hx, hy⟩ := of_append h
  cases hy with
  | @token w _ y _ hw hy => exact ⟨x ++ w, y, by simp, hx.append_blank hw, hy⟩

/-- A row of one token is that token with blanks around it. -/
theorem of_singleton (h : Spaced [t] cs) : ∃ u v, Blank u ∧ Blank v ∧ cs = u ++ t ++ v := by
  cases h with
  | token hw h =>
    cases h with
    | blanks hv => exact ⟨_, _, hw, hv, rfl⟩

theorem trim_singleton (h : Spaced [t] cs) (ht : Solid t) : trim cs = t := by
  obtain ⟨u, v, hu, hv, he⟩ := of_singleton h
  exact trim_eq_iff.2 ⟨ht.tight, u, v, hu, hv, he⟩

/-- A character of the text is a blank or stands in a token. -/
theorem mem (h : Spaced ts cs) (hc : c ∈ cs) : isBlank c = true ∨ ∃ t ∈ ts, c ∈ t := by
  induction h with
  | blanks hw => exact Or.inl (hw c hc)
  | token hw _ ih =>
    rcases List.mem_append.1 hc with hc | hc
    · rcases List.mem_append.1 hc with hc | hc
      · exact Or.inl (hw c hc)
      · exact Or.inr ⟨_, List.mem_cons_self .., hc⟩
    · rcases ih hc with hb | ⟨t, ht, hct⟩
      · exact Or.inl hb
      · exact Or.inr ⟨t, List.mem_cons_of_mem _ ht, hct⟩

/-- A character that is no blank and stands in no token is not in the text. -/
theorem not_mem (h : Spaced ts cs) (hc : isBlank c = false) (hts : ∀ t ∈ ts, c ∉ t) : c ∉ cs := by
  intro hm
  rcases h.mem hm with hb | ⟨t, ht, hct⟩
  · rw [hc] at hb
    cases hb
  · exact hts t ht hct

/-- The text holds every token. -/
theorem mem_of_mem (h : Spaced ts cs) (ht : t ∈ ts) (hc : c ∈ t) : c ∈ cs := by
  induction h with
  | blanks hw => cases ht
  | token hw _ ih =>
    rcases List.mem_cons.1 ht with rfl | ht
    · exact List.mem_append_left _ (List.mem_append_right _ hc)
    · exact List.mem_append_right _ (ih ht)

/-- The start is trimmed up to the first token. -/
protected theorem trimStart (h : Spaced ts cs) (hts : ∀ t ∈ ts, t ≠ [] ∧ Solid t) : Spaced ts (trimStart cs) := by
  cases h with
  | blanks hw =>
    obtain ⟨u, -, he⟩ := exists_trimStart cs
    exact .blanks fun c hc => hw c (he ▸ List.mem_append_right _ hc)
  | @token w t cs ts hw h =>
    obtain ⟨hne, hsolid⟩ := hts t (List.mem_cons_self ..)
    have hhead : ∀ c ∈ (t ++ cs).head?, isBlank c = false := by
      intro c hc
      rw [List.head?_append_of_ne_nil _ hne] at hc
      exact hsolid c (List.mem_of_mem_head? hc)
    rw [List.append_assoc, trimStart_append hw, trimStart_eq_self_iff.2 hhead]
    exact .token Blank.nil h

/-- The end is trimmed down to the last token. -/
protected theorem trimEnd (h : Spaced ts cs) (hts : ∀ t ∈ ts, t ≠ [] ∧ Solid t) : Spaced ts (trimEnd cs) := by
  induction h with
  | @blanks w hw =>
    obtain ⟨v, -, he⟩ := exists_trimEnd w
    exact .blanks fun c hc => hw c (he ▸ List.mem_append_left _ hc)
  | @token w t cs ts hw h ih =>
    obtain ⟨⟨hne, hsolid⟩, hts⟩ := List.forall_mem_cons.1 hts
    have hlast : ∀ c ∈ (w ++ t).getLast?, isBlank c = false := by
      intro c hc
      rw [List.getLast?_append_of_ne_nil _ hne] at hc
      exact hsolid c (List.mem_of_getLast? hc)
    rw [trimEnd_append_of_getLast? hlast]
    exact .token hw (ih hts)

/-- Spaced tokens without blanks stay spaced when the text is trimmed. -/
protected theorem trim (h : Spaced ts cs) (hts : ∀ t ∈ ts, t ≠ [] ∧ Solid t) : Spaced ts (trim cs) :=
  (h.trimStart hts).trimEnd hts

/-- A row of groups with a separator between them is split into the groups. -/
theorem splitAll {gs : List (List (List Char))} (h : Spaced ([[sep]].intercalate gs) cs) (hne : gs ≠ [])
    (hsep : isBlank sep = false) (hgs : ∀ g ∈ gs, ∀ t ∈ g, sep ∉ t) : List.Forall₂ Spaced gs (splitAll sep cs) := by
  induction gs generalizing cs with
  | nil => exact absurd rfl hne
  | cons g gs ih =>
    obtain ⟨hg, hgs⟩ := List.forall_mem_cons.1 hgs
    cases gs with
    | nil =>
      rw [List.intercalate_singleton] at h
      rw [splitAll_of_not_mem (h.not_mem hsep hg)]
      exact .cons h .nil
    | cons g' gs =>
      rw [List.intercalate_cons_cons, List.append_assoc] at h
      obtain ⟨x, y, rfl, hx, hy⟩ := h.of_separated
      rw [splitAll_append_cons (hx.not_mem hsep hg)]
      exact .cons hx (ih hy (List.cons_ne_nil _ _) hgs)

end Spaced

/-- The characters of a row of groups are those of the groups, with the separator between them. -/
theorem flatten_intercalate (sep : Char) (gs : List (List (List Char))) :
    ([[sep]].intercalate gs).flatten = [sep].intercalate (gs.map List.flatten) := by
  induction gs with
  | nil => rfl
  | cons g gs ih =>
    cases gs with
    | nil => simp
    | cons g' gs => simp only [List.map_cons, List.intercalate_cons_cons, List.flatten_append, List.flatten_singleton, ih]

/-! ## Names and mappings -/

theorem solid_nameStops : Solid nameStops := by decide

theorem isName_iff {cs : List Char} : isName cs = true ↔ cs ≠ [] ∧ Solid cs ∧ ∀ c ∈ cs, c ∉ nameStops := word_iff

theorem isWord_iff {cs : List Char} : isWord cs = true ↔ cs ≠ [] ∧ Solid cs ∧ ∀ c ∈ cs, c ∉ wordStops := word_iff

namespace Mapping

variable {m : Mapping} {names : List String} {pairs : List (String × String)} {n : String} {p : String × String}
  {cs part : List Char} {c : Char}

/-- Every name of the mapping is one that the grammar admits where it stands. -/
def Writable : Mapping → Prop
  | .order names => ∀ n ∈ names, isName n.toList = true
  | .table pairs => ∀ p ∈ pairs, isWord p.1.toList = true ∧ isWord p.2.toList = true

/-- The tokens of a pair in a table. -/
def pairTokens (p : String × String) : List (List Char) := [p.1.toList, [':'], p.2.toList]

/-- The names and the punctuation of a mapping, in the order in which they are written. -/
def tokens : Mapping → List (List Char)
  | .order names => [[',']].intercalate (names.map fun n => [n.toList])
  | .table pairs => ['{'] :: [[',']].intercalate (pairs.map pairTokens) ++ [['}']]

/-- The written form of a mapping is the row of its tokens. -/
theorem flatten_tokens (m : Mapping) : m.tokens.flatten = m.toChars := by
  cases m with
  | order names => simp [tokens, toChars, flatten_intercalate, Function.comp_def]
  | table pairs =>
    have hpair : ∀ p : String × String, (pairTokens p).flatten = pairChars p := fun p => by simp [pairTokens, pairChars]
    simp [tokens, toChars, flatten_intercalate, Function.comp_def, hpair]

/-! ### Spaced tokens are read -/

theorem nameOf?_of_spaced (hn : isName n.toList = true) (h : Spaced [n.toList] part) : nameOf? part = some n := by
  obtain ⟨-, hsolid, -⟩ := isName_iff.1 hn
  unfold nameOf?
  rw [h.trim_singleton hsolid, if_pos hn, String.ofList_toList]

theorem pairOf?_of_spaced (hp : isWord p.1.toList = true ∧ isWord p.2.toList = true) (h : Spaced (pairTokens p) part) :
    pairOf? part = some p := by
  obtain ⟨-, hdest, hstops⟩ := isWord_iff.1 hp.1
  obtain ⟨-, hsource, -⟩ := isWord_iff.1 hp.2
  have hrow : Spaced ([p.1.toList] ++ [':'] :: [p.2.toList]) part := h
  obtain ⟨x, y, rfl, hx, hy⟩ := hrow.of_separated
  have hcolon : ':' ∉ x := by
    refine hx.not_mem (by decide) fun t ht hm => ?_
    rw [List.mem_singleton.1 ht] at hm
    exact hstops _ hm (by decide)
  unfold pairOf?
  rw [cutAt_eq_some_iff.2 ⟨rfl, hcolon⟩]
  simp only [hx.trim_singleton hdest, hy.trim_singleton hsource, hp.1, hp.2, Bool.and_self, if_true, String.ofList_toList]

/-- A list whose items are read from their spaced tokens is read from the row of them with commas between. -/
theorem mapM_of_spaced {α : Type} {read : List Char → Option α} {write : α → List (List Char)} {xs : List α}
    (hread : ∀ x ∈ xs, ∀ part, Spaced (write x) part → read part = some x)
    (hwrite : ∀ x ∈ xs, write x ≠ [] ∧ ∀ t ∈ write x, t ≠ [] ∧ Solid t ∧ ',' ∉ t)
    (h : Spaced ([[',']].intercalate (xs.map write)) cs) :
    (if (trim cs).isEmpty then some [] else (splitAll ',' (trim cs)).mapM read) = some xs := by
  cases xs with
  | nil =>
    rw [trim_eq_nil_iff.2 h.blank]
    rfl
  | cons x xs =>
    have htokens : ∀ t ∈ [[',']].intercalate ((x :: xs).map write), t ≠ [] ∧ Solid t := by
      intro t ht
      rcases mem_of_mem_intercalate ht with ht | ⟨g, hg, ht⟩
      · rw [List.mem_singleton.1 ht]
        exact ⟨List.cons_ne_nil _ _, .singleton (by decide)⟩
      · obtain ⟨y, hy, rfl⟩ := List.mem_map.1 hg
        obtain ⟨hne, hsolid, -⟩ := (hwrite y hy).2 t ht
        exact ⟨hne, hsolid⟩
    have htrim := h.trim htokens
    have hne : (trim cs).isEmpty = false := by
      have hx : x ∈ x :: xs := List.mem_cons_self ..
      obtain ⟨t, ht⟩ := List.exists_mem_of_ne_nil _ (hwrite x hx).1
      have htok : t ∈ [[',']].intercalate ((x :: xs).map write) := mem_intercalate_of_mem (List.mem_map_of_mem hx) ht
      obtain ⟨c, hc⟩ := List.exists_mem_of_ne_nil _ (htokens t htok).1
      exact List.isEmpty_eq_false_iff.2 (List.ne_nil_of_mem (htrim.mem_of_mem htok hc))
    have hcommas : ∀ g ∈ (x :: xs).map write, ∀ t ∈ g, ',' ∉ t := by
      intro g hg t ht
      obtain ⟨y, hy, rfl⟩ := List.mem_map.1 hg
      exact ((hwrite y hy).2 t ht).2.2
    have hsplit := htrim.splitAll (List.cons_ne_nil _ _) (by decide) hcommas
    rw [List.forall₂_map_left_iff] at hsplit
    have hparts := (List.forall₂_and_left (x :: xs) _).2 ⟨hread, hsplit⟩
    rw [hne, if_neg Bool.false_ne_true, mapM_eq_some_iff]
    exact (hparts.imp fun y part hy => hy.1 part hy.2).flip

theorem namesOf?_of_spaced (hn : ∀ n ∈ names, isName n.toList = true) (h : Spaced (tokens (.order names)) cs) :
    namesOf? cs = some names := by
  refine mapM_of_spaced (fun n hmem part hpart => nameOf?_of_spaced (hn n hmem) hpart) (fun n hmem => ?_) h
  obtain ⟨hne, hsolid, hstops⟩ := isName_iff.1 (hn n hmem)
  refine ⟨List.cons_ne_nil _ _, fun t ht => ?_⟩
  rw [List.mem_singleton.1 ht]
  exact ⟨hne, hsolid, fun hm => hstops _ hm (by decide)⟩

theorem pairsOf?_of_spaced (hp : ∀ p ∈ pairs, isWord p.1.toList = true ∧ isWord p.2.toList = true)
    (h : Spaced ([[',']].intercalate (pairs.map pairTokens)) cs) : pairsOf? cs = some pairs := by
  refine mapM_of_spaced (fun p hmem part hpart => pairOf?_of_spaced (hp p hmem) hpart) (fun p hmem => ?_) h
  obtain ⟨hd, hsolidd, hstopsd⟩ := isWord_iff.1 (hp p hmem).1
  obtain ⟨hs, hsolids, hstopss⟩ := isWord_iff.1 (hp p hmem).2
  refine ⟨List.cons_ne_nil _ _, ?_⟩
  intro t ht
  simp only [pairTokens, List.mem_cons, List.not_mem_nil, or_false] at ht
  rcases ht with rfl | rfl | rfl
  · exact ⟨hd, hsolidd, fun hm => hstopsd _ hm (by decide)⟩
  · exact ⟨List.cons_ne_nil _ _, .singleton (by decide), by decide⟩
  · exact ⟨hs, hsolids, fun hm => hstopss _ hm (by decide)⟩

/-- A mapping is read from every text that spaces out its tokens. -/
theorem ofChars_of_spaced (hm : m.Writable) (h : Spaced m.tokens cs) : ofChars cs = .ok m := by
  unfold ofChars
  cases m with
  | order names =>
    have hbrace : '{' ∉ cs := by
      refine h.not_mem (by decide) fun t ht hc => ?_
      rcases mem_of_mem_intercalate ht with ht | ⟨g, hg, ht⟩
      · rw [List.mem_singleton.1 ht] at hc
        exact absurd hc (by decide)
      · obtain ⟨n, hn, rfl⟩ := List.mem_map.1 hg
        rw [List.mem_singleton.1 ht] at hc
        exact (isName_iff.1 (hm n hn)).2.2 _ hc (by decide)
    have hlist : enclosed? '{' '}' (trim cs) = none := by
      cases hbody : enclosed? '{' '}' (trim cs) with
      | none => rfl
      | some body =>
        have hmem : '{' ∈ trim cs := by
          rw [enclosed?_eq_some_iff.1 hbody]
          exact List.mem_cons_self ..
        exact absurd (mem_of_mem_trim hmem) hbrace
    rw [hlist, namesOf?_of_spaced hm h]
  | table pairs =>
    have hrow : Spaced ([] ++ ['{'] :: ([[',']].intercalate (pairs.map pairTokens) ++ [['}']])) cs := h
    obtain ⟨u, y, rfl, hu, hy⟩ := hrow.of_separated
    obtain ⟨body, v, rfl, hbody, hv⟩ := hy.of_separated
    have htrim : trim (u ++ '{' :: (body ++ '}' :: v)) = '{' :: body ++ ['}'] :=
      trim_eq_iff.2 ⟨tight_enclosed (by decide) (by decide), u, v, hu.blank, hv.blank, by simp⟩
    rw [htrim, enclosed?_eq_some_iff.2 rfl]
    simp only [pairsOf?_of_spaced hm hbody]

/-! ### What is read is writable -/

/-- The names that a mapping holds, the two of a pair one after the other. -/
def words : Mapping → List String
  | .order names => names
  | .table pairs => pairs.flatMap fun p => [p.1, p.2]

/-- Every item of a list is read from a stretch of it. -/
theorem exists_part {α : Type} {read : List Char → Option α} {xs : List α} {x : α}
    (h : (if (trim cs).isEmpty then some [] else (splitAll ',' (trim cs)).mapM read) = some xs) (hx : x ∈ xs) :
    ∃ part, (∀ c ∈ part, c ∈ cs) ∧ read part = some x := by
  split at h
  · cases Option.some.inj h
    cases hx
  · obtain ⟨part, hpart, he⟩ := exists_of_mem_mapM h hx
    exact ⟨part, fun c hc => mem_of_mem_trim (mem_of_mem_splitAll hpart hc).1, he⟩

theorem of_nameOf? (h : nameOf? part = some n) : isName n.toList = true ∧ ∀ c ∈ n.toList, c ∈ part := by
  unfold nameOf? at h
  split at h
  · next hname =>
    rw [← Option.some.inj h, String.toList_ofList]
    exact ⟨hname, fun c hc => mem_of_mem_trim hc⟩
  · cases h

theorem of_pairOf? (h : pairOf? part = some p) :
    (isWord p.1.toList = true ∧ isWord p.2.toList = true) ∧ ∀ n ∈ [p.1, p.2], ∀ c ∈ n.toList, c ∈ part := by
  unfold pairOf? at h
  split at h
  · cases h
  · next dest source hcut =>
    obtain ⟨rfl, -⟩ := cutAt_eq_some_iff.1 hcut
    split at h
    · next hwords =>
      rw [Bool.and_eq_true] at hwords
      cases Option.some.inj h
      simp only [List.mem_cons, List.not_mem_nil, or_false, String.toList_ofList]
      refine ⟨hwords, ?_⟩
      rintro n (rfl | rfl) c hc
      · rw [String.toList_ofList] at hc
        exact List.mem_append_left _ (mem_of_mem_trim hc)
      · rw [String.toList_ofList] at hc
        exact List.mem_append_right _ (List.mem_cons_of_mem _ (mem_of_mem_trim hc))
    · cases h

/-- The names of a mapping that is read are names of the grammar, and stand in the text. -/
theorem of_ofChars (h : ofChars cs = .ok m) : m.Writable ∧ ∀ n ∈ m.words, ∀ c ∈ n.toList, c ∈ cs := by
  unfold ofChars at h
  split at h
  · next body hbody =>
    have hsub : ∀ c ∈ body, c ∈ cs := fun c hc => by
      refine mem_of_mem_trim ?_
      rw [enclosed?_eq_some_iff.1 hbody]
      exact List.mem_append_left _ (List.mem_cons_of_mem _ hc)
    split at h
    · next pairs hpairs =>
      cases Except.ok.inj h
      refine ⟨fun p hp => ?_, fun n hn c hc => ?_⟩
      · obtain ⟨part, -, he⟩ := exists_part hpairs hp
        exact (of_pairOf? he).1
      · obtain ⟨p, hp, hn⟩ := List.mem_flatMap.1 hn
        obtain ⟨part, hpart, he⟩ := exists_part hpairs hp
        exact hsub c (hpart c ((of_pairOf? he).2 n hn c hc))
    · cases h
  · split at h
    · next names hnames =>
      cases Except.ok.inj h
      refine ⟨fun n hn => ?_, fun n hn c hc => ?_⟩
      · obtain ⟨part, -, he⟩ := exists_part hnames hn
        exact (of_nameOf? he).1
      · obtain ⟨part, hpart, he⟩ := exists_part hnames hn
        exact hpart c ((of_nameOf? he).2 c hc)
    · cases h

/-- A list of names that is read holds, commas apart, none of the characters that no name holds. -/
theorem not_mem_nameStops (h : namesOf? cs = some names) (hc : c ∈ cs) (hcomma : c ≠ ',') : c ∉ nameStops := by
  intro hstop
  have hkeep : ∀ {ds : List Char}, c ∈ ds → c ∈ trim ds := by
    intro ds hd
    rcases mem_trim_or_isBlank hd with hd | hd
    · exact hd
    · rw [solid_nameStops c hstop] at hd
      cases hd
  unfold namesOf? at h
  split at h
  · next hempty =>
    have hmem := hkeep hc
    rw [List.isEmpty_iff.1 hempty] at hmem
    cases hmem
  · obtain ⟨part, hpart, hmem⟩ := exists_mem_splitAll (hkeep hc) hcomma
    obtain ⟨n, hn⟩ := exists_of_mapM h hpart
    unfold nameOf? at hn
    split at hn
    · next hname => exact (isName_iff.1 hname).2.2 c (hkeep hmem) hstop
    · cases hn

/-- A mapping that is read reads back from its written form. -/
theorem ofChars_toChars (h : ofChars cs = .ok m) : ofChars m.toChars = .ok m :=
  ofChars_of_spaced (of_ofChars h).1 (m.flatten_tokens ▸ Spaced.flatten m.tokens)

/-- The written form of a mapping holds its names and punctuation. -/
theorem mem_toChars (hc : c ∈ m.toChars) : c ∈ wordStops ∨ ∃ n ∈ m.words, c ∈ n.toList := by
  cases m with
  | order names =>
    rcases mem_of_mem_intercalate hc with hc | ⟨part, hpart, hc⟩
    · rw [List.mem_singleton.1 hc]
      exact Or.inl (by decide)
    · obtain ⟨n, hn, rfl⟩ := List.mem_map.1 hpart
      exact Or.inr ⟨n, hn, hc⟩
  | table pairs =>
    simp only [toChars, List.mem_append, List.mem_cons, List.not_mem_nil, or_false] at hc
    rcases hc with (rfl | hc) | rfl
    · exact Or.inl (by decide)
    · rcases mem_of_mem_intercalate hc with hc | ⟨part, hpart, hc⟩
      · rw [List.mem_singleton.1 hc]
        exact Or.inl (by decide)
      · obtain ⟨p, hp, rfl⟩ := List.mem_map.1 hpart
        have hwords : ∀ n ∈ [p.1, p.2], n ∈ words (.table pairs) := fun n hn => List.mem_flatMap.2 ⟨p, hp, hn⟩
        rcases List.mem_append.1 hc with hc | hc
        · exact Or.inr ⟨p.1, hwords p.1 (by simp), hc⟩
        · rcases List.mem_cons.1 hc with rfl | hc
          · exact Or.inl (by decide)
          · exact Or.inr ⟨p.2, hwords p.2 (by simp), hc⟩
    · exact Or.inl (by decide)

/-- The written form of a mapping holds the characters of its names. -/
theorem mem_toChars_of_mem (hn : n ∈ m.words) (hc : c ∈ n.toList) : c ∈ m.toChars := by
  cases m with
  | order names => exact mem_intercalate_of_mem (List.mem_map_of_mem hn) hc
  | table pairs =>
    obtain ⟨p, hp, hn⟩ := List.mem_flatMap.1 hn
    have hpair : c ∈ pairChars p := by
      unfold pairChars
      simp only [List.mem_cons, List.not_mem_nil, or_false] at hn
      rcases hn with rfl | rfl
      · exact List.mem_append_left _ hc
      · exact List.mem_append_right _ (List.mem_cons_of_mem _ hc)
    exact List.mem_append_left _ (List.mem_cons_of_mem _ (mem_intercalate_of_mem (List.mem_map_of_mem hp) hpair))

end Mapping

/-! ## Filters -/

namespace FilterKind

/-- Each keyword stands for one kind of filter. -/
theorem ofKeyword?_eq_some_iff {k : FilterKind} {cs : List Char} : ofKeyword? cs = some k ↔ cs = k.keyword.toList := by
  constructor
  · intro h
    unfold ofKeyword? at h
    have hk := List.find?_some h
    exact (of_decide_eq_true hk).symm
  · rintro rfl
    cases k <;> decide

/-- A keyword is a word of letters. -/
theorem keyword_letters (k : FilterKind) : k.keyword.toList ≠ [] ∧ ∀ c ∈ k.keyword.toList, isLetter c = true ∧ isBlank c = false := by
  have hall : k.keyword.toList.all (fun c => isLetter c && !isBlank c) = true := by cases k <;> decide
  refine ⟨by cases k <;> decide, fun c hc => ?_⟩
  simpa using List.all_eq_true.1 hall c hc

end FilterKind

namespace Filter

variable {f : Filter} {cs : List Char} {text : String}

/-- The keyword, the parentheses and the tokens of the mapping. -/
def tokens (f : Filter) : List (List Char) := f.kind.keyword.toList :: ['('] :: f.mapping.tokens ++ [[')']]

/-- The written form of a filter is the row of its tokens. -/
theorem flatten_tokens (f : Filter) : f.tokens.flatten = f.render.toList := by
  simp [tokens, render, Mapping.render, Mapping.flatten_tokens]

/-- A trimmed text that spaces out the tokens of a filter is cut around its mapping. -/
theorem exists_body (h : Spaced f.tokens cs) :
    ∃ w body, Blank w ∧ Spaced f.mapping.tokens body ∧ trim cs = f.kind.keyword.toList ++ w ++ '(' :: (body ++ [')']) := by
  obtain ⟨hne, hletters⟩ := f.kind.keyword_letters
  have hrow : Spaced ([f.kind.keyword.toList] ++ ['('] :: (f.mapping.tokens ++ [[')']])) cs := h
  obtain ⟨x, y, rfl, hx, hy⟩ := hrow.of_separated
  obtain ⟨u, w, hu, hw, rfl⟩ := hx.of_singleton
  obtain ⟨body, v, rfl, hbody, hv⟩ := hy.of_separated
  refine ⟨w, body, hw, hbody, trim_eq_iff.2 ⟨⟨?_, ?_⟩, u, v, hu, hv.blank, by simp⟩⟩
  · intro c hc
    rw [List.append_assoc, List.head?_append_of_ne_nil _ hne] at hc
    exact (hletters c (List.mem_of_mem_head? hc)).2
  · intro c hc
    rw [← List.cons_append, ← List.append_assoc, List.getLast?_concat] at hc
    cases hc
    decide

/-- A trimmed text spells a filter when it is a keyword, a mapping in parentheses, and nothing else. -/
theorem ofTrimmed?_eq_some_iff :
    ofTrimmed? cs = some f ↔ ∃ head body, cs = head ++ '(' :: (body ++ [')']) ∧ (∀ c ∈ head, isLetter c = true ∨ isBlank c = true) ∧
      trim head = f.kind.keyword.toList ∧ Mapping.ofChars body = .ok f.mapping := by
  unfold ofTrimmed?
  constructor
  · intro h
    obtain ⟨⟨head, rest⟩, hcut, h⟩ := Option.bind_eq_some_iff.1 h
    dsimp only at h
    split at h
    · cases h
    · next hhead =>
      obtain ⟨body, hbody, h⟩ := Option.bind_eq_some_iff.1 h
      obtain ⟨kind, hkind, h⟩ := Option.bind_eq_some_iff.1 h
      obtain ⟨mapping, hmapping, h⟩ := Option.bind_eq_some_iff.1 h
      cases Option.some.inj h
      refine ⟨head, body, ?_, ?_, FilterKind.ofKeyword?_eq_some_iff.1 hkind, ?_⟩
      · rw [(cutAt_eq_some_iff.1 hcut).1, dropLast?_eq_some_iff.1 hbody]
      · intro c hc
        rw [Bool.not_eq_true, Bool.not_eq_false', List.all_eq_true] at hhead
        exact Bool.or_eq_true_iff.1 (hhead c hc)
      · exact toOption_eq_some_iff.1 hmapping
  · rintro ⟨head, body, rfl, hhead, hkeyword, hbody⟩
    have hopen : '(' ∉ head := fun hm => by
      rcases hhead _ hm with h | h <;> exact absurd h (by decide)
    have hall : head.all (fun c => isLetter c || isBlank c) = true := by
      rw [List.all_eq_true]
      exact fun c hc => Bool.or_eq_true_iff.2 (hhead c hc)
    rw [cutAt_eq_some_iff.2 ⟨rfl, hopen⟩]
    simp only [Option.bind_eq_bind, Option.bind_some, hall, Bool.not_true, Bool.false_eq_true, if_false]
    rw [dropLast?_eq_some_iff.2 rfl, Option.bind_some, FilterKind.ofKeyword?_eq_some_iff.2 hkeyword, Option.bind_some, hbody]
    rfl

/-- What a text spells is what its trimmed characters spell. -/
theorem parse_eq_some_iff : parse text = .ok (some f) ↔ ofTrimmed? (trim text.toList) = some f := by
  unfold parse
  dsimp only
  constructor
  · intro h
    split at h
    · cases h
    · split at h
      · next hread => rw [hread, Option.some.inj (Except.ok.inj h)]
      · cases h
  · intro h
    have hlong : (trim text.toList).isEmpty = false := by
      obtain ⟨head, body, he, -⟩ := ofTrimmed?_eq_some_iff.1 h
      rw [he]
      simp
    rw [hlong, h]
    rfl

/-- A filter is read from every text that spaces out its tokens. -/
theorem parse_of_spaced (hf : f.mapping.Writable) (h : Spaced f.tokens cs) : parse (String.ofList cs) = .ok (some f) := by
  obtain ⟨hne, hletters⟩ := f.kind.keyword_letters
  obtain ⟨w, body, hw, hbody, htrim⟩ := exists_body h
  have hsolid : Solid f.kind.keyword.toList := fun c hc => (hletters c hc).2
  rw [parse_eq_some_iff, String.toList_ofList, htrim, ofTrimmed?_eq_some_iff]
  refine ⟨_, body, rfl, ?_, ?_, Mapping.ofChars_of_spaced hf hbody⟩
  · intro c hc
    rcases List.mem_append.1 hc with hc | hc
    · exact Or.inl (hletters c hc).1
    · exact Or.inr (hw c hc)
  · exact trim_eq_iff.2 ⟨hsolid.tight, [], w, Blank.nil, hw, by simp⟩

/-- The names of a filter that is read are names of the grammar. -/
theorem writable_of_parse (h : parse text = .ok (some f)) : f.mapping.Writable := by
  obtain ⟨head, body, -, -, -, hbody⟩ := ofTrimmed?_eq_some_iff.1 (parse_eq_some_iff.1 h)
  exact (Mapping.of_ofChars hbody).1

/-- Text round trip of filters: the written form of a filter that is read is the row of its tokens, it reads back as the same
filter, and so does every text that holds the tokens in order with blanks around them. -/
theorem written_filter_reads_back (h : parse text = .ok (some f)) :
    parse f.render = .ok (some f) ∧ f.tokens.flatten = f.render.toList ∧
      ∀ cs, Spaced f.tokens cs → parse (String.ofList cs) = .ok (some f) := by
  have hspaced : ∀ cs, Spaced f.tokens cs → parse (String.ofList cs) = .ok (some f) :=
    fun cs hcs => parse_of_spaced (writable_of_parse h) hcs
  refine ⟨?_, f.flatten_tokens, hspaced⟩
  have hrender := hspaced _ (Spaced.flatten f.tokens)
  rwa [flatten_tokens, String.ofList_toList] at hrender

/-- A table whose names hold the parentheses, the brackets and the `=` that part the layers around it, and its written form spaced out
with an em space, a tab and an ideographic space. -/
theorem written_filter_reads_back_delimiters :
    parse " keep ( \x7b a( : =b) , [c : d] \x7d ) " = .ok (some ⟨.keep, .table [("a(", "=b)"), ("[c", "d]")]⟩) ∧
      parse "keep(\x7ba(:=b),[c:d]\x7d)" = .ok (some ⟨.keep, .table [("a(", "=b)"), ("[c", "d]")]⟩) ∧
      parse "keep\u2003( \x7ba(:\t=b) ,[c:d] \x7d)\u3000" = .ok (some ⟨.keep, .table [("a(", "=b)"), ("[c", "d]")]⟩) := by
  have hread : parse " keep ( \x7b a( : =b) , [c : d] \x7d ) " = .ok (some ⟨.keep, .table [("a(", "=b)"), ("[c", "d]")]⟩) := by
    decide +kernel
  have hspaced : Spaced (tokens ⟨.keep, .table [("a(", "=b)"), ("[c", "d]")]⟩)
      "keep\u2003( \x7ba(:\t=b) ,[c:d] \x7d)\u3000".toList :=
    .token (w := []) Blank.nil <| .token (w := ['\u2003']) (by decide) <| .token (w := [' ']) (by decide) <|
    .token (w := []) Blank.nil <| .token (w := []) Blank.nil <| .token (w := ['\t']) (by decide) <|
    .token (w := [' ']) (by decide) <| .token (w := []) Blank.nil <| .token (w := []) Blank.nil <|
    .token (w := []) Blank.nil <| .token (w := [' ']) (by decide) <| .token (w := []) Blank.nil <| .blanks (by decide)
  have hspacedRead := (written_filter_reads_back hread).2.2 _ hspaced
  rw [String.ofList_toList] at hspacedRead
  exact ⟨hread, (written_filter_reads_back hread).1, hspacedRead⟩

end Filter

end Dataflow
