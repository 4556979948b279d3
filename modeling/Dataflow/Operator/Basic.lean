import Dataflow.Data.Entry
import Dataflow.Operator.Broadcast

/-!
# Operators

An operator declares typed outputs, typed parameters and the arguments that its kernel is given, each read from the channel of
one parameter. Its kernel is either a core, which the library runs once per tuple, or an evaluation of whole arrays.
-/

namespace Dataflow

/-- How an argument reads the sequence of values on a channel: its first value, the last at or before a key, the first at or
after it, or the weight of the key between those two. -/
inductive Access where
  | first | floor | ceiling | weight
  deriving DecidableEq, Repr, Inhabited

/-- The executable part of an operator. Either kind is given the views of its arguments and the contents of its outputs, and
returns new contents of the outputs; an evaluation may instead refuse, with a reason. -/
inductive Kernel where
  | core (run : Core)
  | evaluate (run : Evaluation)

/-- An output: its type, its name, and whether the operator itself says how many scalars it has. -/
structure OutputDecl where
  type : DataType
  name : String
  custom : Bool
  deriving DecidableEq, Repr

/-- The number of scalars that an output has after `count` iterations: `count` tuples, or what the operator itself allocates
at the output's position. -/
def OutputDecl.length (decl : OutputDecl) (allocated : Option (List Nat)) (count i : Nat) : Nat :=
  if decl.custom then (allocated.bind (·[i]?)).getD 0 else count * decl.type.tupleSize

/-- A parameter: its type, the channel that feeds it unless it is mapped to another, whether it may be left unbound, and whether
it is always passed whole. -/
structure ParamDecl where
  type : DataType
  source : String
  optional : Bool
  array : Bool
  deriving DecidableEq, Repr

/-- An argument: the position of the parameter it reads, how it reads it, the position of the parameter that holds the key, and
whether it is always passed whole. -/
structure ArgDecl where
  param : Nat
  access : Access
  key : Option Nat
  array : Bool
  deriving DecidableEq, Repr

/-- A checked operator. The allocation says how many scalars each custom output has, given the arguments and the number of
iterations. -/
structure Operator where
  name : String
  outputs : List OutputDecl
  params : List ParamDecl
  args : List ArgDecl
  alloc : Option (List View → Nat → List Nat)
  kernel : Kernel

namespace Operator

/-- The type that the kernel sees for an argument: a weight is a float, everything else is of its parameter's type. -/
def argType (op : Operator) (arg : ArgDecl) : DataType :=
  match arg.access with
  | .weight => .float
  | _ => (op.params[arg.param]?.map (·.type)).getD .float

/-- The tuple sizes of the arguments. -/
def argSizes (op : Operator) : List Nat := op.args.map fun arg => (op.argType arg).tupleSize

/-- The tuple sizes of the outputs. -/
def outputSizes (op : Operator) : List Nat := op.outputs.map (·.type.tupleSize)

end Operator

end Dataflow
