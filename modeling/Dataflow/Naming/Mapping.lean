import Dataflow.Error

/-!
# Mappings between names

A mapping is written either as a list of names in order, `a,b,c`, or as a table of renamings, `{dest:source,...}`. Operators
use it to bind their parameters and outputs to channel names; filters use it to say which names they keep, remove or rename.
-/

namespace Dataflow

/-- A list of names in order, or a table of pairs, destination first. -/
inductive Mapping where
  | order (names : List String)
  | table (pairs : List (String × String))
  deriving DecidableEq, Repr

instance : Inhabited Mapping := ⟨.order []⟩

/-- What a filter does with the names of its mapping. -/
inductive FilterKind where
  | rename | keep | remove
  deriving DecidableEq, Repr, Inhabited

/-- The characters that no listed name holds, blanks apart. -/
def nameStops : List Char := [',', ':', '{', '}', '[', ']', '(', ')', '=']

/-- The characters that no name in a table holds, blanks apart. -/
def wordStops : List Char := [',', ':', '{', '}']

/-- A name outside tables: at least one character, no blank, and none of `nameStops`. -/
def isName (cs : List Char) : Bool := !cs.isEmpty && cs.all (!isBlank ·) && avoids nameStops cs

/-- A name in a table: at least one character, no blank, and none of `wordStops`. -/
def isWord (cs : List Char) : Bool := !cs.isEmpty && cs.all (!isBlank ·) && avoids wordStops cs

namespace Mapping

/-- The name that a list of characters spells, if it is one. -/
def nameOf? (cs : List Char) : Option String := if isName (trim cs) then some (String.ofList (trim cs)) else none

/-- The pair `dest:source` that a list of characters spells, blanks around either side aside. -/
def pairOf? (cs : List Char) : Option (String × String) :=
  match cutAt ':' cs with
  | none => none
  | some (dest, source) =>
    if isWord (trim dest) && isWord (trim source) then
      some (String.ofList (trim dest), String.ofList (trim source))
    else none

/-- The names of a list, parted by commas. A blank list has no names. -/
def namesOf? (cs : List Char) : Option (List String) :=
  if (trim cs).isEmpty then some [] else (splitAll ',' (trim cs)).mapM nameOf?

/-- The pairs of a table, parted by commas. A blank table has no pairs. -/
def pairsOf? (cs : List Char) : Option (List (String × String)) :=
  if (trim cs).isEmpty then some [] else (splitAll ',' (trim cs)).mapM pairOf?

/-- The mapping that a list of characters spells: a table inside braces, a list of names otherwise. When there is none, the
error is the part that could not be read. -/
def ofChars (cs : List Char) : Except (List Char) Mapping :=
  match enclosed? '{' '}' (trim cs) with
  | some body =>
    match pairsOf? body with
    | some pairs => .ok (.table pairs)
    | none => .error (trim body)
  | none =>
    match namesOf? cs with
    | some names => .ok (.order names)
    | none => .error (trim cs)

/-- The mapping that `text` spells. -/
def parse (text : String) : Except Error Mapping :=
  (ofChars text.toList).mapError fun cs => .mappingSyntax (String.ofList cs)

/-- A pair as it stands in a table. -/
def pairChars (pair : String × String) : List Char := pair.1.toList ++ ':' :: pair.2.toList

/-- The characters of a mapping's written form. -/
def toChars : Mapping → List Char
  | .order names => [','].intercalate (names.map String.toList)
  | .table pairs => '{' :: [','].intercalate (pairs.map pairChars) ++ ['}']

/-- The written form of a mapping. -/
def render (m : Mapping) : String := String.ofList m.toChars

/-- A mapping without names. -/
def isEmpty : Mapping → Bool
  | .order names => names.isEmpty
  | .table pairs => pairs.isEmpty

/-- The channel that feeds a parameter declared with `source` at position `i`: the `i`-th name of a list, or the source that a
table gives for that destination; the declared source when the mapping has neither. -/
def inputName (m : Mapping) (i : Nat) (source : String) : String :=
  match m with
  | .order names => names[i]?.getD source
  | .table pairs => ((pairs.find? (·.1 = source)).map (·.2)).getD source

/-- The channel that an output declared as `declared` at position `i` feeds: the `i`-th name of a list, or the destination that
a table gives for that source; the declared name when the mapping has neither. -/
def outputName (m : Mapping) (i : Nat) (declared : String) : String :=
  match m with
  | .order names => names[i]?.getD declared
  | .table pairs => ((pairs.find? (·.2 = declared)).map (·.1)).getD declared

/-- A name under itself. -/
def same (name : String) : String × String := (name, name)

/-- The pairs, destination first, that a filter of kind `kind` lets through of the available names, in the order in which they
are merged. A list selects names and renames nothing. A table lets the names through that it does not use as a source, unless
it keeps only its own, and then its renamings of available names, unless it removes them. -/
def select (kind : FilterKind) (available : List String) : Mapping → List (String × String)
  | .order names =>
    (available.filter fun name =>
      match kind with
      | .rename => true
      | .keep => names.contains name
      | .remove => !names.contains name).map same
  | .table pairs =>
    let others := (available.filter fun name => !pairs.any (·.2 = name)).map same
    let renamed := pairs.filter fun pair => available.contains pair.2
    (if kind = .keep then [] else others) ++ (if kind = .remove then [] else renamed)

end Mapping

end Dataflow
