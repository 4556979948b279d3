/-!
# Text: blanks, trimming, cutting and splitting

The grammars of this library are written over lists of characters. This module holds the few operations they share: the
blank characters, removing them at both ends, cutting at the first occurrence of a character, splitting at every one, and
removing a pair of enclosing characters.
-/

namespace Dataflow

/-- A blank is a character with Unicode's White_Space property. -/
def isBlank (c : Char) : Bool :=
  let n := c.toNat
  (9 ≤ n && n ≤ 13) || n == 0x20 || n == 0x85 || n == 0xA0 || n == 0x1680 || (0x2000 ≤ n && n ≤ 0x200A) ||
    n == 0x2028 || n == 0x2029 || n == 0x202F || n == 0x205F || n == 0x3000

/-- The characters from the first that is no blank. -/
def trimStart (cs : List Char) : List Char := cs.dropWhile isBlank

/-- The characters up to the last that is no blank. -/
def trimEnd (cs : List Char) : List Char := (cs.reverse.dropWhile isBlank).reverse

/-- The characters from the first to the last that is no blank. -/
def trim (cs : List Char) : List Char := trimEnd (trimStart cs)

/-- What stands before and after the first occurrence of `sep`, if there is one. -/
def cutAt (sep : Char) : List Char → Option (List Char × List Char)
  | [] => none
  | c :: cs => if c = sep then some ([], cs) else (cutAt sep cs).map fun (before, after) => (c :: before, after)

/-- The stretches between the occurrences of `sep`, in order; there is always one stretch more than there are occurrences. -/
def splitAll (sep : Char) : List Char → List (List Char)
  | [] => [[]]
  | c :: cs =>
    if c = sep then [] :: splitAll sep cs
    else match splitAll sep cs with
      | [] => [[c]]
      | part :: parts => (c :: part) :: parts

/-- The characters before the last one, if that is `c`. -/
def dropLast? (c : Char) (cs : List Char) : Option (List Char) :=
  if cs.getLast? = some c then some cs.dropLast else none

/-- The characters between an opening `l` at the start and a closing `r` at the end, if both are there. -/
def enclosed? (l r : Char) : List Char → Option (List Char)
  | [] => none
  | c :: cs => if c = l then dropLast? r cs else none

/-- No character of the list is one of `stops`. -/
def avoids (stops : List Char) (cs : List Char) : Bool := cs.all fun c => !stops.contains c

/-- Cutting loses nothing: the two parts and the separator make up the text. -/
theorem eq_of_cutAt {sep : Char} {cs before after : List Char} (h : cutAt sep cs = some (before, after)) :
    cs = before ++ sep :: after := by
  induction cs generalizing before with
  | nil => simp [cutAt] at h
  | cons c cs ih =>
    rw [cutAt] at h
    split at h
    · obtain ⟨rfl, rfl⟩ := Prod.mk.inj (Option.some.inj h)
      simp_all
    · obtain ⟨⟨b, a⟩, hb, he⟩ := Option.map_eq_some_iff.1 h
      obtain ⟨rfl, rfl⟩ := Prod.mk.inj he
      rw [ih hb, List.cons_append]

/-- The part before a cut does not hold the separator. -/
theorem not_mem_of_cutAt {sep : Char} {cs before after : List Char} (h : cutAt sep cs = some (before, after)) :
    sep ∉ before := by
  induction cs generalizing before with
  | nil => simp [cutAt] at h
  | cons c cs ih =>
    rw [cutAt] at h
    split at h
    · obtain ⟨rfl, rfl⟩ := Prod.mk.inj (Option.some.inj h)
      simp
    · rename_i hc
      obtain ⟨⟨b, a⟩, hb, he⟩ := Option.map_eq_some_iff.1 h
      obtain ⟨rfl, rfl⟩ := Prod.mk.inj he
      simp only [List.mem_cons, not_or]
      exact ⟨fun e => hc e.symm, ih hb⟩

end Dataflow
