import Dataflow.Operator.Basic

/-!
# Totals: the kernel that adds up its arguments

A kernel that fits operators of any declaration. Every float output is the sum of the float arguments, scalar by scalar, every
integer output the wrapping sum of the integer arguments, every boolean output their exclusive or, and a texture output is the
first texture among the arguments.
-/

namespace Dataflow

namespace Totals

/-- The combination, from `zero` on, of scalar `j` of every list that has one. -/
def total {α : Type} (combine : α → α → α) (zero : α) (lists : List (List α)) (j : Nat) : α :=
  (lists.filterMap (·[j]?)).foldl combine zero

/-- The total of one output. -/
def output (args : List View) : Payload → Payload
  | .floats l => .floats ((List.range l.length).map
      (total (· + ·) 0 (args.filterMap fun | some (.floats s) => some s | _ => none)))
  | .ints l => .ints ((List.range l.length).map
      (total (· + ·) 0 (args.filterMap fun | some (.ints s) => some s | _ => none)))
  | .bools l => .bools ((List.range l.length).map
      (total xor false (args.filterMap fun | some (.bools s) => some s | _ => none)))
  | .texture t => .texture ((args.findSome? fun | some (.texture s) => some s | _ => none).getD t)

/-- The totals of all outputs. -/
def core : Core := fun args outs => outs.map (output args)

/-- The totals of all outputs, refused when the first scalar of a float argument is negative. -/
def evaluate : Evaluation := fun _ args outs =>
  if args.any fun view => (view.floats[0]?).any (· < 0) then .error "kernel refused" else .ok (core args outs)

/-- A linear allocation: each item is a factor of the number of iterations and an offset. -/
def linearAlloc (items : List (Nat × Nat)) : List View → Nat → List Nat := fun _ count =>
  items.map fun (factor, offset) => count * factor + offset

end Totals

end Dataflow
