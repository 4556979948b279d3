import Dataflow.Naming.Compute
import Dataflow.Proofs.Written

/-!
# The two forms of a computation's text

A text has the call form or the assignment form or neither, never both: the call form has two opening parentheses, the assignment
one. So the order in which the forms are tried does not matter, and the same outputs, operator and inputs mean the same in both.

What is read is written as an assignment with the outputs in brackets. That reads back with two exceptions. An empty table of
outputs is not written at all, so it reads back as an empty list. And a table of outputs that stands without brackets may hold
names with a `]`, which the brackets that are written around it do not admit: the written form is refused.
-/

namespace Dataflow

namespace Compute

variable {p q : Parts} {c : Compute} {cs : List Char} {text : String}

/-- The characters that no part of a computation's text holds, the inputs' `=` apart. -/
def formStops : List Char := ['(', ')', '=']

theorem solid_formStops : Solid formStops := by decide

/-- The text has the call form: `outputs(operator)(inputs)`, with blanks around the operator and between the parentheses. -/
structure Called (p : Parts) (cs : List Char) : Prop where
  text : ∃ u v w, Blank u ∧ Blank v ∧ Blank w ∧
    cs = p.outputs ++ '(' :: (u ++ p.operator ++ v ++ ')' :: (w ++ ('(' :: p.inputs ++ [')'])))
  outputs : ∀ c ∈ p.outputs, c ∉ formStops
  operator : p.operator ≠ [] ∧ Solid p.operator ∧ ∀ c ∈ p.operator, c ∉ formStops
  inputs : ∀ c ∈ p.inputs, c ∉ ['(', ')']

/-- The text has the assignment form: `outputs = operator(inputs)` or `operator(inputs)`, with blanks around the operator. -/
structure Assigned (p : Parts) (cs : List Char) : Prop where
  text : ∃ front u v, (front = [] ∧ p.outputs = [] ∨ front = p.outputs ++ ['='] ∧ p.outputs ≠ []) ∧ Blank u ∧ Blank v ∧
    cs = front ++ (u ++ p.operator ++ v) ++ '(' :: (p.inputs ++ [')'])
  outputs : ∀ c ∈ p.outputs, c ∉ formStops
  operator : p.operator ≠ [] ∧ Tight p.operator ∧ ∀ c ∈ p.operator, c ∉ formStops
  inputs : ∀ c ∈ p.inputs, c ∉ ['(', ')']

/-- The parts of a cut text make it up in the call form. -/
theorem called_of_callParts? (h : callParts? cs = some p) : Called p cs := by
  unfold callParts? at h
  obtain ⟨⟨outputs, rest⟩, houtputs, h⟩ := Option.bind_eq_some_iff.1 h
  obtain ⟨⟨operator, last⟩, hoperator, h⟩ := Option.bind_eq_some_iff.1 h
  obtain ⟨inputs, hinputs, h⟩ := Option.bind_eq_some_iff.1 h
  dsimp only at h
  split at h
  · next hparts =>
    cases Option.some.inj h
    simp only [Bool.and_eq_true, Bool.not_eq_true', List.isEmpty_eq_false_iff, List.all_eq_true, avoids_iff] at hparts
    obtain ⟨⟨⟨⟨hout, hne⟩, hsolid⟩, hop⟩, hin⟩ := hparts
    obtain ⟨u, v, hu, hv, he⟩ := exists_trim operator
    obtain ⟨w, hw, hlast⟩ := exists_trimStart last
    refine ⟨⟨u, v, w, hu, hv, hw, ?_⟩, hout, ⟨hne, hsolid, hop⟩, hin⟩
    rw [(cutAt_eq_some_iff.1 houtputs).1, (cutAt_eq_some_iff.1 hoperator).1, ← he, ← enclosed?_eq_some_iff.1 hinputs, ← hlast]
  · cases h

/-- A text of the call form is cut into its parts. -/
theorem Called.callParts? (h : Called p cs) : callParts? cs = some p := by
  obtain ⟨⟨u, v, w, hu, hv, hw, rfl⟩, hout, ⟨hne, hsolid, hop⟩, hin⟩ := h
  have hopen : '(' ∉ p.outputs := fun hm => hout _ hm (by decide)
  have hclose : ')' ∉ u ++ p.operator ++ v := fun hm => padded_avoids hu hv solid_formStops hop _ hm (by decide)
  have hstart : trimStart (w ++ ('(' :: p.inputs ++ [')'])) = '(' :: p.inputs ++ [')'] := by
    rw [trimStart_append hw, trimStart_eq_self_iff]
    exact (tight_enclosed (by decide) (by decide)).1
  rw [Compute.callParts?, cutAt_eq_some_iff.2 ⟨rfl, hopen⟩]
  simp only [Option.bind_eq_bind, Option.bind_some]
  rw [cutAt_eq_some_iff.2 ⟨rfl, hclose⟩]
  simp only [Option.bind_some, hstart]
  rw [enclosed?_eq_some_iff.2 rfl, trim_append_append hu hv hsolid.tight]
  simp only [Option.bind_some]
  rw [if_pos]
  · rfl
  · simp only [Bool.and_eq_true, Bool.not_eq_true', List.isEmpty_eq_false_iff, List.all_eq_true, avoids_iff]
    exact ⟨⟨⟨⟨hout, hne⟩, hsolid⟩, hop⟩, hin⟩

/-- A text has the call form exactly when it is cut into its parts. -/
theorem callParts?_eq_some_iff : callParts? cs = some p ↔ Called p cs := ⟨called_of_callParts?, Called.callParts?⟩

/-- The parts of a cut text make it up in the assignment form. -/
theorem assigned_of_assignParts? (h : assignParts? cs = some p) : Assigned p cs := by
  unfold assignParts? at h
  obtain ⟨⟨head, rest⟩, hhead, h⟩ := Option.bind_eq_some_iff.1 h
  obtain ⟨inputs, hinputs, h⟩ := Option.bind_eq_some_iff.1 h
  dsimp only at h
  have htext : cs = head ++ '(' :: (inputs ++ [')']) := by
    rw [(cutAt_eq_some_iff.1 hhead).1, dropLast?_eq_some_iff.1 hinputs]
  split at h
  · cases h
  · next hparens =>
    rw [Bool.not_eq_true, Bool.not_eq_false', Bool.and_eq_true, avoids_iff, avoids_iff] at hparens
    obtain ⟨hin, hparens⟩ := hparens
    have hstops : ∀ c ∈ head, c ≠ '=' → c ∉ formStops := by
      intro c hc he hm
      have := hparens c hc
      simp_all [formStops]
    split at h
    · next hcut =>
      -- there are no outputs
      have hassign := cutAt_eq_none_iff.1 hcut
      split at h
      · cases h
      · next hne =>
        cases Option.some.inj h
        obtain ⟨u, v, hu, hv, he⟩ := exists_trim head
        refine ⟨⟨[], u, v, Or.inl ⟨rfl, rfl⟩, hu, hv, ?_⟩, by simp, ⟨by simpa using hne, tight_trim head, ?_⟩, hin⟩
        · rw [List.nil_append, ← he, htext]
        · intro c hc
          exact hstops c (mem_of_mem_trim hc) (fun e => hassign (e ▸ mem_of_mem_trim hc))
    · next outputs operator hcut =>
      obtain ⟨hsplit, hassign⟩ := cutAt_eq_some_iff.1 hcut
      split at h
      · cases h
      · next hne =>
        cases Option.some.inj h
        simp only [Bool.or_eq_true, List.isEmpty_iff, List.contains_eq_mem, decide_eq_true_eq, not_or] at hne
        obtain ⟨⟨hout, hop⟩, htrim⟩ := hne
        obtain ⟨u, v, hu, hv, he⟩ := exists_trim operator
        refine ⟨⟨outputs ++ ['='], u, v, Or.inr ⟨rfl, hout⟩, hu, hv, ?_⟩, ?_, ⟨htrim, tight_trim operator, ?_⟩, hin⟩
        · rw [← he, htext, hsplit, List.append_assoc _ ['='], List.singleton_append]
        · intro c hc
          exact hstops c (hsplit ▸ List.mem_append_left _ hc) (fun e => hassign (e ▸ hc))
        · intro c hc
          have hmem := mem_of_mem_trim hc
          exact hstops c (hsplit ▸ List.mem_append_right _ (List.mem_cons_of_mem _ hmem)) (fun e => hop (e ▸ hmem))

/-- A text of the assignment form is cut into its parts. -/
theorem Assigned.assignParts? (h : Assigned p cs) : assignParts? cs = some p := by
  obtain ⟨outputs, operator, inputs⟩ := p
  obtain ⟨⟨front, u, v, hfront, hu, hv, rfl⟩, hout, ⟨hne, htight, hop⟩, hin⟩ := h
  dsimp only at hfront hout hne htight hop hin ⊢
  have hmiddle : ∀ c ∈ u ++ operator ++ v, c ∉ formStops := padded_avoids hu hv solid_formStops hop
  have hhead : ∀ c ∈ front ++ (u ++ operator ++ v), c ∉ ['(', ')'] := by
    have hsub : ['(', ')'] ⊆ formStops := by decide
    intro c hc hm
    rcases List.mem_append.1 hc with hc | hc
    · rcases hfront with ⟨rfl, -⟩ | ⟨rfl, -⟩
      · cases hc
      · rcases List.mem_append.1 hc with hc | hc
        · exact hout c hc (hsub hm)
        · rw [List.mem_singleton.1 hc] at hm
          exact absurd hm (by decide)
    · exact hmiddle c hc (hsub hm)
  have htrim := trim_append_append hu hv htight
  have hopen : '(' ∉ front ++ (u ++ operator ++ v) := fun hm => hhead _ hm (by decide)
  have hparens : (!(avoids ['(', ')'] inputs && avoids ['(', ')'] (front ++ (u ++ operator ++ v)))) = false := by
    rw [Bool.not_eq_false', Bool.and_eq_true, avoids_iff, avoids_iff]
    exact ⟨hin, hhead⟩
  rw [Compute.assignParts?, cutAt_eq_some_iff.2 ⟨rfl, hopen⟩]
  simp only [Option.bind_eq_bind, Option.bind_some]
  rw [dropLast?_eq_some_iff.2 rfl]
  simp only [Option.bind_some, hparens, Bool.false_eq_true, if_false]
  rcases hfront with ⟨rfl, rfl⟩ | ⟨rfl, hsome⟩
  · rw [List.nil_append, cutAt_eq_none_iff.2 fun hm => hmiddle _ hm (by decide)]
    simp only [htrim, List.isEmpty_iff, hne, if_false]
    rfl
  · rw [List.append_assoc, List.singleton_append, cutAt_eq_some_iff.2 ⟨rfl, fun hm => hout _ hm (by decide)⟩]
    have hassign : '=' ∉ u ++ operator ++ v := fun hm => hmiddle _ hm (by decide)
    simp only [htrim, List.isEmpty_iff, List.contains_eq_mem, hassign, hsome, hne, Bool.or_eq_true, decide_eq_true_eq, or_false,
      if_false]
    rfl

/-- A text has the assignment form exactly when it is cut into its parts. -/
theorem assignParts?_eq_some_iff : assignParts? cs = some p ↔ Assigned p cs := ⟨assigned_of_assignParts?, Assigned.assignParts?⟩

/-! ## One form at most, and either -/

/-- The call form has two opening parentheses. -/
theorem Called.count (h : Called p cs) : cs.count '(' = 2 := by
  obtain ⟨⟨u, v, w, hu, hv, hw, rfl⟩, hout, ⟨-, -, hop⟩, hin⟩ := h
  have hzero : ∀ {ds : List Char}, '(' ∉ ds → ds.count '(' = 0 := List.count_eq_zero_of_not_mem
  simp [hzero (hu.not_mem (by decide)), hzero (hv.not_mem (by decide)), hzero (hw.not_mem (by decide)),
    hzero fun hm => hout _ hm (by decide), hzero fun hm => hop _ hm (by decide), hzero fun hm => hin _ hm (by decide)]

/-- The assignment form has one opening parenthesis. -/
theorem Assigned.count (h : Assigned p cs) : cs.count '(' = 1 := by
  obtain ⟨⟨front, u, v, hfront, hu, hv, rfl⟩, hout, ⟨-, -, hop⟩, hin⟩ := h
  have hzero : ∀ {ds : List Char}, '(' ∉ ds → ds.count '(' = 0 := List.count_eq_zero_of_not_mem
  have hnone : front.count '(' = 0 := by
    rcases hfront with ⟨rfl, -⟩ | ⟨rfl, -⟩
    · rfl
    · simp [hzero fun hm => hout _ hm (by decide)]
  simp [hnone, hzero (hu.not_mem (by decide)), hzero (hv.not_mem (by decide)), hzero fun hm => hop _ hm (by decide),
    hzero fun hm => hin _ hm (by decide)]

/-- No text has both forms. -/
theorem Called.not_assigned (h : Called p cs) : ¬ Assigned q cs := by
  intro h'
  have hcount := h.count
  rw [h'.count] at hcount
  cases hcount

/-- The order in which the forms are tried does not matter. -/
theorem parts_comm (cs : List Char) : (callParts? cs <|> assignParts? cs) = (assignParts? cs <|> callParts? cs) := by
  cases hcall : callParts? cs with
  | none => cases assignParts? cs <;> rfl
  | some p =>
    cases hassign : assignParts? cs with
    | none => rfl
    | some q => exact absurd (assignParts?_eq_some_iff.1 hassign) (callParts?_eq_some_iff.1 hcall).not_assigned

/-- A text that has one of the forms spells what its parts spell. -/
theorem ofTrimmed?_of_parts (h : Called p cs ∨ Assigned p cs) : ofTrimmed? cs = ofParts? p := by
  unfold ofTrimmed?
  rcases h with h | h
  · rw [callParts?_eq_some_iff.2 h]
    rfl
  · rw [parts_comm, assignParts?_eq_some_iff.2 h]
    rfl

/-- A text that spells a computation has one of the forms. -/
theorem exists_parts (h : ofTrimmed? cs = some c) : ∃ p, (Called p cs ∨ Assigned p cs) ∧ ofParts? p = some c := by
  obtain ⟨p, hp, hc⟩ := Option.bind_eq_some_iff.1 h
  refine ⟨p, ?_, hc⟩
  cases hcall : callParts? cs with
  | some q =>
    rw [hcall] at hp
    cases Option.some.inj hp
    exact Or.inl (callParts?_eq_some_iff.1 hcall)
  | none =>
    rw [hcall] at hp
    exact Or.inr (assignParts?_eq_some_iff.1 hp)

/-- A text that has a form is not empty. -/
theorem ne_nil_of_parts (h : Called p cs ∨ Assigned p cs) : cs ≠ [] := by
  rintro rfl
  rcases h with h | h
  · cases h.count
  · cases h.count

/-- What a text spells is what the parts of its trimmed characters spell. -/
theorem parse_of_parts (h : Called p (trim text.toList) ∨ Assigned p (trim text.toList)) :
    parse text = match ofParts? p with
      | some c => .ok (some c)
      | none => .error (.computeSyntax (String.ofList (trim text.toList))) := by
  unfold parse
  dsimp only
  rw [List.isEmpty_eq_false_iff.2 (ne_nil_of_parts h), ofTrimmed?_of_parts h]
  rfl

/-- The outputs without their brackets do not depend on the blanks around them. -/
theorem unbracket_congr {a b : List Char} (h : trim a = trim b) : unbracket a = unbracket b := by
  unfold unbracket
  rw [h]

/-- Outputs, an operator and inputs make up the same parts in both forms, up to blanks behind the outputs. -/
theorem exists_parts_alike {o f i : String} (ho : ¬ Blank o.toList ∧ ∀ c ∈ o.toList, c ∉ formStops)
    (hf : f ≠ "" ∧ Solid f.toList ∧ ∀ c ∈ f.toList, c ∉ formStops) (hi : ∀ c ∈ i.toList, c ∉ ['(', ')']) :
    ∃ p q, Assigned p (trim (o ++ " = " ++ f ++ "(" ++ i ++ ")").toList) ∧
      Called q (trim (o ++ "(" ++ f ++ ")(" ++ i ++ ")").toList) ∧ ofParts? p = ofParts? q := by
  obtain ⟨hsome, hout⟩ := ho
  obtain ⟨hne, hsolid, hop⟩ := hf
  obtain ⟨u, hu, he⟩ := exists_trimStart o.toList
  have hfront : trimStart o.toList ≠ [] := fun hnil => hsome (by rw [he, hnil, List.append_nil]; exact hu)
  have hout : ∀ c ∈ trimStart o.toList, c ∉ formStops := fun c hc => hout c (by rw [he]; exact List.mem_append_right _ hc)
  have hop : f.toList ≠ [] ∧ Solid f.toList ∧ ∀ c ∈ f.toList, c ∉ formStops := ⟨by simpa using hne, hsolid, hop⟩
  have hspace : Blank [' '] := .singleton (by decide)
  refine ⟨⟨trimStart o.toList ++ [' '], f.toList, i.toList⟩, ⟨trimStart o.toList, f.toList, i.toList⟩, ?_, ?_, ?_⟩
  · refine ⟨⟨trimStart o.toList ++ [' '] ++ ['='], [' '], [], Or.inr ⟨rfl, by simp⟩, hspace, Blank.nil, ?_⟩, ?_,
      ⟨hop.1, hsolid.tight, hop.2.2⟩, hi⟩
    · have htext : (o ++ " = " ++ f ++ "(" ++ i ++ ")").toList =
          o.toList ++ (' ' :: '=' :: ' ' :: f.toList ++ '(' :: i.toList) ++ [')'] := by simp
      rw [htext, trim_append_of_getLast? hsome (by decide)]
      simp
    · intro c hc
      rcases List.mem_append.1 hc with hc | hc
      · exact hout c hc
      · exact hspace.avoids solid_formStops c hc
  · refine ⟨⟨[], [], [], Blank.nil, Blank.nil, Blank.nil, ?_⟩, hout, hop, hi⟩
    have htext : (o ++ "(" ++ f ++ ")(" ++ i ++ ")").toList =
        o.toList ++ ('(' :: f.toList ++ ')' :: '(' :: i.toList) ++ [')'] := by simp
    rw [htext, trim_append_of_getLast? hsome (by decide)]
    simp
  · have hsame : trim (trimStart o.toList ++ [' ']) = trim (trimStart o.toList) := trim_padded Blank.nil hspace
    unfold ofParts?
    rw [unbracket_congr hsame]

/-- The two forms are disjoint and mean the same. The two cuts are the two patterns; no text has both, so the order in which they
are tried is irrelevant; and outputs, an operator and inputs spell the same computation in both forms, or none in either. -/
theorem forms_disjoint_and_equivalent :
    (∀ cs p, (callParts? cs = some p ↔ Called p cs) ∧ (assignParts? cs = some p ↔ Assigned p cs)) ∧
    (∀ cs, ¬ ((∃ p, Called p cs) ∧ ∃ p, Assigned p cs)) ∧
    (∀ cs, ofTrimmed? cs = (assignParts? cs <|> callParts? cs).bind ofParts?) ∧
    ∀ o f i : String, (¬ Blank o.toList ∧ ∀ c ∈ o.toList, c ∉ ['(', ')', '=']) →
      (f ≠ "" ∧ Solid f.toList ∧ ∀ c ∈ f.toList, c ∉ ['(', ')', '=']) → (∀ c ∈ i.toList, c ∉ ['(', ')']) →
      (∃ c, parse (o ++ " = " ++ f ++ "(" ++ i ++ ")") = .ok (some c) ∧ parse (o ++ "(" ++ f ++ ")(" ++ i ++ ")") = .ok (some c)) ∨
      ∃ e e', parse (o ++ " = " ++ f ++ "(" ++ i ++ ")") = .error (.computeSyntax e) ∧
        parse (o ++ "(" ++ f ++ ")(" ++ i ++ ")") = .error (.computeSyntax e') := by
  refine ⟨fun cs p => ⟨callParts?_eq_some_iff, assignParts?_eq_some_iff⟩, ?_, ?_, ?_⟩
  · rintro cs ⟨⟨p, hp⟩, q, hq⟩
    exact hp.not_assigned hq
  · intro cs
    rw [ofTrimmed?, parts_comm]
  · intro o f i ho hf hi
    obtain ⟨p, q, hassigned, hcalled, hsame⟩ := exists_parts_alike ho hf hi
    rw [parse_of_parts (Or.inr hassigned), parse_of_parts (Or.inl hcalled), hsame]
    cases ofParts? q with
    | some c => exact Or.inl ⟨c, rfl, rfl⟩
    | none => exact Or.inr ⟨_, _, rfl, rfl⟩

/-- Outputs with blanks around them and in brackets, and inputs in a table. -/
theorem forms_disjoint_and_equivalent_bracketed :
    (∃ c, parse " [a, b]  = f(\x7bx : y\x7d)" = .ok (some c) ∧ parse " [a, b] (f)(\x7bx : y\x7d)" = .ok (some c)) ∨
      ∃ e e', parse " [a, b]  = f(\x7bx : y\x7d)" = .error (.computeSyntax e) ∧
        parse " [a, b] (f)(\x7bx : y\x7d)" = .error (.computeSyntax e') := by
  have ho : ¬ Blank " [a, b] ".toList ∧ ∀ c ∈ " [a, b] ".toList, c ∉ ['(', ')', '='] := ⟨by decide, avoids_iff.1 (by decide)⟩
  have hf : "f" ≠ "" ∧ Solid "f".toList ∧ ∀ c ∈ "f".toList, c ∉ ['(', ')', '='] := ⟨by decide, by decide, avoids_iff.1 (by decide)⟩
  have hi : ∀ c ∈ "\x7bx : y\x7d".toList, c ∉ ['(', ')'] := avoids_iff.1 (by decide)
  exact forms_disjoint_and_equivalent.2.2.2 " [a, b] " "f" "\x7bx : y\x7d" ho hf hi

/-! ## Written computations -/

/-- What a computation that is read is made of: an operator in one piece, and mappings of names without the characters that part
the text. -/
structure Spoken (c : Compute) : Prop where
  operator : c.operator.toList ≠ [] ∧ Tight c.operator.toList ∧ ∀ d ∈ c.operator.toList, d ∉ formStops
  readable : Mapping.ofChars c.inputs.toChars = .ok c.inputs ∧ Mapping.ofChars c.outputs.toChars = .ok c.outputs
  inputs : ∀ d ∈ c.inputs.toChars, d ∉ ['(', ')']
  outputs : ∀ d ∈ c.outputs.toChars, d ∉ formStops

/-- The outputs without their brackets are characters of the outputs. -/
theorem mem_of_mem_unbracket {d : Char} (h : d ∈ unbracket cs) : d ∈ cs := by
  unfold unbracket at h
  split at h
  · next body hbody =>
    split at h
    · exact mem_of_mem_trim h
    · refine mem_of_mem_trim ?_
      rw [enclosed?_eq_some_iff.1 hbody]
      exact List.mem_append_left _ (List.mem_cons_of_mem _ h)
  · exact mem_of_mem_trim h

/-- Three parts make up a computation when both mappings are read. -/
theorem ofParts?_eq_some_iff : ofParts? p = some c ↔ Mapping.ofChars p.inputs = .ok c.inputs ∧
    Mapping.ofChars (unbracket p.outputs) = .ok c.outputs ∧ c.operator = String.ofList p.operator := by
  unfold ofParts?
  constructor
  · intro h
    obtain ⟨inputs, hin, h⟩ := Option.bind_eq_some_iff.1 h
    obtain ⟨outputs, hout, h⟩ := Option.bind_eq_some_iff.1 h
    cases Option.some.inj h
    exact ⟨toOption_eq_some_iff.1 hin, toOption_eq_some_iff.1 hout, rfl⟩
  · obtain ⟨operator, inputs, outputs⟩ := c
    rintro ⟨hin, hout, rfl⟩
    rw [toOption_eq_some_iff.2 hin, toOption_eq_some_iff.2 hout]
    rfl

/-- The written form of a mapping that is read avoids what its text avoids, punctuation apart. -/
theorem toChars_avoids {m : Mapping} {stops : List Char} (h : Mapping.ofChars cs = .ok m) (hcs : ∀ d ∈ cs, d ∉ stops)
    (hstops : ∀ d ∈ wordStops, d ∉ stops) : ∀ d ∈ m.toChars, d ∉ stops := by
  intro d hd
  rcases Mapping.mem_toChars hd with hd | ⟨n, hn, hd⟩
  · exact hstops d hd
  · exact hcs d ((Mapping.of_ofChars h).2 n hn d hd)

/-- A computation that is read is spoken. -/
theorem spoken_of_parse (h : parse text = .ok (some c)) : c.Spoken := by
  unfold parse at h
  dsimp only at h
  split at h
  · cases h
  · split at h
    · next hread =>
      cases Option.some.inj (Except.ok.inj h)
      obtain ⟨p, hp, hparts⟩ := exists_parts hread
      obtain ⟨hin, hout, hop⟩ := ofParts?_eq_some_iff.1 hparts
      have hpieces : (∀ d ∈ p.outputs, d ∉ formStops) ∧ (p.operator ≠ [] ∧ Tight p.operator ∧ ∀ d ∈ p.operator, d ∉ formStops) ∧
          ∀ d ∈ p.inputs, d ∉ ['(', ')'] := by
        rcases hp with ⟨-, houtputs, ⟨hne, hsolid, hoperator⟩, hinputs⟩ | ⟨-, houtputs, hoperator, hinputs⟩
        · exact ⟨houtputs, ⟨hne, hsolid.tight, hoperator⟩, hinputs⟩
        · exact ⟨houtputs, hoperator, hinputs⟩
      refine ⟨?_, ⟨Mapping.ofChars_toChars hin, Mapping.ofChars_toChars hout⟩, toChars_avoids hin hpieces.2.2 (avoids_iff.1 (by decide)),
        toChars_avoids hout (fun d hd => hpieces.1 d (mem_of_mem_unbracket hd)) (avoids_iff.1 (by decide))⟩
      rw [hop, String.toList_ofList]
      exact hpieces.2.1
    · cases h

/-- A computation without outputs is written without them, and reads back with an empty list of outputs. -/
theorem Spoken.parse_render_of_isEmpty (hc : c.Spoken) (h : c.outputs.isEmpty = true) :
    parse c.render = .ok (some { c with outputs := .order [] }) := by
  have htext : c.render.toList = c.operator.toList ++ '(' :: (c.inputs.toChars ++ [')']) := by
    simp [render, h, Mapping.render]
  have htight : Tight c.render.toList := by
    constructor
    · intro d hd
      rw [htext, List.head?_append_of_ne_nil _ hc.operator.1] at hd
      exact hc.operator.2.1.1 d hd
    · intro d hd
      rw [htext, ← List.cons_append, ← List.append_assoc, List.getLast?_concat] at hd
      cases hd
      decide
  have hparts : Assigned ⟨[], c.operator.toList, c.inputs.toChars⟩ (trim c.render.toList) := by
    rw [trim_eq_self_iff.2 htight]
    exact ⟨⟨[], [], [], Or.inl ⟨rfl, rfl⟩, Blank.nil, Blank.nil, by simp [htext]⟩, by simp, hc.operator, hc.inputs⟩
  have hread : ofParts? ⟨[], c.operator.toList, c.inputs.toChars⟩ = some { c with outputs := .order [] } :=
    ofParts?_eq_some_iff.2 ⟨hc.readable.1, rfl, String.ofList_toList.symm⟩
  rw [parse_of_parts (Or.inr hparts), hread]

/-- Outputs in brackets lose them, unless they hold a closing one. -/
theorem unbracket_bracketed (ds : List Char) :
    unbracket ('[' :: ds ++ [']', ' ']) = if ']' ∈ ds then '[' :: ds ++ [']'] else ds := by
  have htrim : trim ('[' :: ds ++ [']', ' ']) = '[' :: ds ++ [']'] := by
    exact trim_eq_iff.2 ⟨tight_enclosed (by decide) (by decide), [], [' '], Blank.nil, .singleton (by decide), by simp⟩
  unfold unbracket
  rw [htrim, enclosed?_eq_some_iff.2 rfl]
  simp only [List.contains_eq_mem, decide_eq_true_eq]

/-- Outputs that keep their brackets are no mapping. -/
theorem ofChars_bracketed {m : Mapping} (ds : List Char) : Mapping.ofChars ('[' :: ds ++ [']']) ≠ .ok m := by
  intro h
  have htrim : trim ('[' :: ds ++ [']']) = '[' :: ds ++ [']'] := trim_eq_self_iff.2 (tight_enclosed (by decide) (by decide))
  unfold Mapping.ofChars at h
  rw [htrim] at h
  split at h
  · next body hbody =>
    have hhead := enclosed?_eq_some_iff.1 hbody
    rw [List.cons_append, List.cons_append, List.cons.injEq] at hhead
    exact absurd hhead.1 (by decide)
  · split at h
    · next names hnames =>
      exact Mapping.not_mem_nameStops hnames (List.mem_cons_self ..) (by decide : '[' ≠ ',') (by decide)
    · cases h

/-- A computation with outputs is written with brackets around them, and reads back unless they hold a closing one. -/
theorem Spoken.parse_render_of_not_isEmpty (hc : c.Spoken) (h : c.outputs.isEmpty = false) :
    parse c.render = if ']' ∈ c.outputs.toChars then .error (.computeSyntax c.render) else .ok (some c) := by
  have htext : c.render.toList = '[' :: c.outputs.toChars ++ [']', ' '] ++ ['='] ++ [' '] ++ c.operator.toList ++
      '(' :: c.inputs.toChars ++ [')'] := by
    simp [render, h, Mapping.render]
  have htight : trim c.render.toList = c.render.toList := by
    rw [htext, trim_eq_self_iff]
    exact tight_enclosed (by decide) (by decide)
  have hspace : Blank [' '] := .singleton (by decide)
  have hparts : Assigned ⟨'[' :: c.outputs.toChars ++ [']', ' '], c.operator.toList, c.inputs.toChars⟩ (trim c.render.toList) := by
    rw [htight]
    refine ⟨⟨_, [' '], [], Or.inr ⟨rfl, by simp⟩, hspace, Blank.nil, by simp [htext]⟩, ?_, hc.operator, hc.inputs⟩
    intro d hd
    simp only [List.mem_append, List.mem_cons, List.not_mem_nil, or_false] at hd
    rcases hd with (rfl | hd) | rfl | rfl
    · decide
    · exact hc.outputs d hd
    · decide
    · decide
  rw [parse_of_parts (Or.inr hparts), htight, String.ofList_toList]
  by_cases hbracket : ']' ∈ c.outputs.toChars
  · have hnone : ofParts? ⟨'[' :: c.outputs.toChars ++ [']', ' '], c.operator.toList, c.inputs.toChars⟩ = none := by
      rw [Option.eq_none_iff_forall_ne_some]
      intro c' hc'
      have hread := (ofParts?_eq_some_iff.1 hc').2.1
      rw [unbracket_bracketed, if_pos hbracket] at hread
      exact ofChars_bracketed _ hread
    rw [hnone, if_pos hbracket]
  · have hsome : ofParts? ⟨'[' :: c.outputs.toChars ++ [']', ' '], c.operator.toList, c.inputs.toChars⟩ = some c := by
      refine ofParts?_eq_some_iff.2 ⟨hc.readable.1, ?_, String.ofList_toList.symm⟩
      rw [unbracket_bracketed, if_neg hbracket]
      exact hc.readable.2
    rw [hsome, if_neg hbracket]

/-- Text round trip of computations: the written form of a computation that is read reads back as the same computation exactly
when the outputs are no empty table and have no name with a `]`. An empty table reads back as an empty list, and with a `]` the
written form is refused. -/
theorem written_computation_reads_back_iff (h : parse text = .ok (some c)) :
    (parse c.render = .ok (some c) ↔ c.outputs ≠ .table [] ∧ ∀ n ∈ c.outputs.words, ']' ∉ n.toList) ∧
    (c.outputs = .table [] → parse c.render = .ok (some { c with outputs := .order [] })) ∧
    ((∃ n ∈ c.outputs.words, ']' ∈ n.toList) → parse c.render = .error (.computeSyntax c.render)) := by
  have hc := spoken_of_parse h
  have hbracket : ']' ∈ c.outputs.toChars ↔ ∃ n ∈ c.outputs.words, ']' ∈ n.toList := by
    constructor
    · intro hm
      rcases Mapping.mem_toChars hm with hm | hm
      · exact absurd hm (by decide)
      · exact hm
    · rintro ⟨n, hn, hm⟩
      exact Mapping.mem_toChars_of_mem hn hm
  have hnone : (∀ n ∈ c.outputs.words, ']' ∉ n.toList) ↔ ']' ∉ c.outputs.toChars := by
    rw [hbracket]
    simp only [not_exists, not_and]
  rw [hnone, ← hbracket]
  cases hempty : c.outputs.isEmpty with
  | true =>
    rw [hc.parse_render_of_isEmpty hempty]
    obtain ⟨operator, inputs, outputs⟩ := c
    cases outputs with
    | order names =>
      cases List.isEmpty_iff.1 hempty
      simp [Mapping.toChars]
    | table pairs =>
      cases List.isEmpty_iff.1 hempty
      simp [Mapping.toChars]
  | false =>
    have hsome : c.outputs ≠ .table [] := fun he => by
      rw [he] at hempty
      cases hempty
    rw [hc.parse_render_of_not_isEmpty hempty]
    by_cases hm : ']' ∈ c.outputs.toChars
    · simp [hm, hsome]
    · simp [hm, hsome]

/-- A table of outputs with an opening bracket in a name. -/
theorem written_computation_reads_back_iff_table :
    parse " \x7b [b : c \x7d = f (\x7bx : y[]\x7d)" = .ok (some ⟨"f", .table [("x", "y[]")], .table [("[b", "c")]⟩) ∧
      parse "[\x7b[b:c\x7d] = f(\x7bx:y[]\x7d)" = .ok (some ⟨"f", .table [("x", "y[]")], .table [("[b", "c")]⟩) := by
  have hread : parse " \x7b [b : c \x7d = f (\x7bx : y[]\x7d)" = .ok (some ⟨"f", .table [("x", "y[]")], .table [("[b", "c")]⟩) := by
    decide +kernel
  exact ⟨hread, (written_computation_reads_back_iff hread).1.2 (by decide)⟩

/-- Outputs that do not read back: a name with a closing bracket, whose written form is refused, and an empty table, which is
left out of the written form. -/
theorem written_outputs_lost :
    (parse "\x7ba]:b\x7d = f(x)" = .ok (some ⟨"f", .order ["x"], .table [("a]", "b")]⟩) ∧
      parse (render ⟨"f", .order ["x"], .table [("a]", "b")]⟩) = .error (.computeSyntax "[\x7ba]:b\x7d] = f(x)")) ∧
    parse "\x7b\x7d = f(x)" = .ok (some ⟨"f", .order ["x"], .table []⟩) ∧
      parse (render ⟨"f", .order ["x"], .table []⟩) = .ok (some ⟨"f", .order ["x"], .order []⟩) := by
  decide +kernel

end Compute

end Dataflow
