import Dataflow.Naming.Mapping

/-!
# Filters

A filter says which names a node exposes to the nodes above it: `keep(a,b)`, `remove(a)`, `rename({dest:source})`. Text
without a character other than blanks stands for no filter.
-/

namespace Dataflow

/-- A kind of filter and the names that it speaks about. -/
structure Filter where
  kind : FilterKind := .rename
  mapping : Mapping := .order []
  deriving DecidableEq, Repr, Inhabited

/-- The keyword of a kind of filter. -/
def FilterKind.keyword : FilterKind → String
  | .rename => "rename"
  | .keep => "keep"
  | .remove => "remove"

/-- The kind of filter of a keyword. -/
def FilterKind.ofKeyword? (cs : List Char) : Option FilterKind :=
  [FilterKind.keep, .remove, .rename].find? (·.keyword.toList = cs)

/-- A letter of a keyword: an ASCII letter. -/
def isLetter (c : Char) : Bool := ('a' ≤ c && c ≤ 'z') || ('A' ≤ c && c ≤ 'Z')

namespace Filter

/-- The filter that lets everything through. -/
def pass : Filter := {}

/-- The filter that trimmed characters spell: a keyword, then a mapping in parentheses that end the text. -/
def ofTrimmed? (cs : List Char) : Option Filter := do
  let (head, rest) ← cutAt '(' cs
  if !head.all (fun c => isLetter c || isBlank c) then none
  let body ← dropLast? ')' rest
  let kind ← FilterKind.ofKeyword? (trim head)
  let mapping ← (Mapping.ofChars body).toOption
  return ⟨kind, mapping⟩

/-- The filter that `text` spells; blank text spells none. -/
def parse (text : String) : Except Error (Option Filter) :=
  let cs := trim text.toList
  if cs.isEmpty then .ok none
  else match ofTrimmed? cs with
    | some f => .ok (some f)
    | none => .error (.filterSyntax (String.ofList cs))

/-- The written form of a filter. -/
def render (f : Filter) : String := f.kind.keyword ++ "(" ++ f.mapping.render ++ ")"

/-- The pairs, destination first, that the filter lets through of the available names. -/
def select (f : Filter) (available : List String) : List (String × String) := f.mapping.select f.kind available

/-- The pairs that an optional filter lets through: all names under themselves without one. -/
def selectFrom (f : Option Filter) (available : List String) : List (String × String) :=
  match f with
  | some f => f.select available
  | none => available.map Mapping.same

end Filter

end Dataflow
