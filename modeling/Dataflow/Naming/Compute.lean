import Dataflow.Naming.Mapping

/-!
# Computations

The text that binds an operator to a node has two forms with one meaning: the assignment `[pos,dir] = skin(pos,dir)` and the
call `[pos,dir](skin)(pos,dir)`. The outputs may stand in brackets and, in the assignment, may be left out. Text without a
character other than blanks stands for no computation.
-/

namespace Dataflow

/-- An operator by name, with the mappings of its parameters and of its outputs to channel names. -/
structure Compute where
  operator : String
  inputs : Mapping
  outputs : Mapping
  deriving DecidableEq, Repr, Inhabited

namespace Compute

/-- The three parts of a computation's text: outputs, operator, inputs. -/
structure Parts where
  outputs : List Char
  operator : List Char
  inputs : List Char
  deriving DecidableEq, Repr

/-- The parts of the call form, `outputs(operator)(inputs)`: no part holds a parenthesis, the first two hold no `=`, and the
operator is one word. -/
def callParts? (cs : List Char) : Option Parts := do
  let (outputs, rest) ← cutAt '(' cs
  let (operator, rest) ← cutAt ')' rest
  let inputs ← enclosed? '(' ')' (trimStart rest)
  let operator := trim operator
  if avoids ['(', ')', '='] outputs && !operator.isEmpty && operator.all (!isBlank ·) && avoids ['(', ')', '='] operator &&
      avoids ['(', ')'] inputs then
    return ⟨outputs, operator, inputs⟩
  else none

/-- The parts of the assignment form, `outputs = operator(inputs)` or `operator(inputs)`: no part holds a parenthesis or, the
inputs apart, a `=`, outputs that are given are not empty, and the operator is not blank. -/
def assignParts? (cs : List Char) : Option Parts := do
  let (head, rest) ← cutAt '(' cs
  let inputs ← dropLast? ')' rest
  if !(avoids ['(', ')'] inputs && avoids ['(', ')'] head) then none
  match cutAt '=' head with
  | none => if (trim head).isEmpty then none else return ⟨[], trim head, inputs⟩
  | some (outputs, operator) =>
    if outputs.isEmpty || operator.contains '=' || (trim operator).isEmpty then none
    else return ⟨outputs, trim operator, inputs⟩

/-- The outputs without the brackets around them, if they have any. -/
def unbracket (cs : List Char) : List Char :=
  match enclosed? '[' ']' (trim cs) with
  | some body => if body.contains ']' then trim cs else body
  | none => trim cs

/-- The computation of three parts. -/
def ofParts? (p : Parts) : Option Compute := do
  let inputs ← (Mapping.ofChars p.inputs).toOption
  let outputs ← (Mapping.ofChars (unbracket p.outputs)).toOption
  return ⟨String.ofList p.operator, inputs, outputs⟩

/-- The computation that trimmed characters spell, in either form. -/
def ofTrimmed? (cs : List Char) : Option Compute := (callParts? cs <|> assignParts? cs).bind ofParts?

/-- The computation that `text` spells; blank text spells none. -/
def parse (text : String) : Except Error (Option Compute) :=
  let cs := trim text.toList
  if cs.isEmpty then .ok none
  else match ofTrimmed? cs with
    | some c => .ok (some c)
    | none => .error (.computeSyntax (String.ofList cs))

/-- The written form of a computation: an assignment, whose outputs are left out when the mapping has none. -/
def render (c : Compute) : String :=
  let call := c.operator ++ "(" ++ c.inputs.render ++ ")"
  if c.outputs.isEmpty then call else "[" ++ c.outputs.render ++ "] = " ++ call

end Compute

end Dataflow
