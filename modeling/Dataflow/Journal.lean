import Dataflow.Error
import Dataflow.Operator.Broadcast

/-!
# The journal: what a call reports besides its answer

While it works on a call, a graph reports the callbacks it invokes, the notices it logs, the kernels it runs and the invariants
it checks. A violated invariant ends the call: it is the last thing that the journal takes.
-/

namespace Dataflow

/-- What a graph checks of itself as it works. -/
inductive Invariant where
  | mergeIdentity | memoized | structureSync | dataKeepsStructure | broadcastSound | sequenceOrdered | inputValidated
  | resultResolved | graphAcyclic | teardownSymmetric
  deriving DecidableEq, Repr

/-- The number of an invariant. -/
def Invariant.id : Invariant → Nat
  | .mergeIdentity => 1
  | .memoized => 2
  | .structureSync => 3
  | .dataKeepsStructure => 4
  | .broadcastSound => 5
  | .sequenceOrdered => 6
  | .inputValidated => 7
  | .resultResolved => 8
  | .graphAcyclic => 9
  | .teardownSymmetric => 10

/-- What an invariant states. -/
def Invariant.statement : Invariant → String
  | .mergeIdentity => "merging a channel into itself is a no-op"
  | .memoized => "memo hit returns the node built for this key"
  | .structureSync => "synchronized channel node starts without materializations"
  | .dataKeepsStructure => "data change left channel nodes in sync"
  | .broadcastSound => "iteration count fits every iterating input"
  | .sequenceOrdered => "channel slots stay sorted by key"
  | .inputValidated => "required inputs are bound"
  | .resultResolved => "every published output resolves to a live entry"
  | .graphAcyclic => "accepted edge keeps the graph acyclic"
  | .teardownSymmetric => "released substitution node is no longer memoized"

/-- An invariant that did not hold, and what was at work. -/
structure Violation where
  invariant : Invariant
  context : String
  deriving DecidableEq, Repr

/-- The wording of a violation. -/
def Violation.message (v : Violation) : String :=
  "Invariant " ++ toString v.invariant.id ++ " failed: " ++ v.invariant.statement ++ " (context: " ++ v.context ++ ")"

/-- The two ways in which a result becomes stale. -/
inductive Change where
  | «structure» | data
  deriving DecidableEq, Repr

/-- The invocation of a request's callback. -/
structure Event where
  request : Nat
  change : Change
  tag : String
  deriving DecidableEq, Repr

/-- What is logged. -/
inductive Notice where
  | invalidFilter (node : Nat) (error : Error)
  | invalidCompute (node : Nat) (error : Error)
  | unknownOperator (node : Nat) (operator : String)
  | missingInput (operator source : String)
  | emptyInput (operator source : String)
  | inputTypeMismatch (operator source : String) (expected actual : DataType)
  | operatorFailed (process : Nat) (reason : String)
  | truncated (operator : String) (count : Nat)
  | reregistered (operator : String)
  | violated (violation : Violation)
  deriving DecidableEq, Repr

/-- A notice is a warning or an error. -/
inductive Level where
  | warning | error
  deriving DecidableEq, Repr

namespace Notice

/-- Truncated iterations and replaced operators are worth a warning; everything else is an error. -/
def level : Notice → Level
  | .truncated .. | .reregistered .. => .warning
  | _ => .error

/-- The wording of a notice. -/
def message : Notice → String
  | .invalidFilter .. => "invalid filter, using identity"
  | .invalidCompute .. => "invalid compute, clearing operator"
  | .unknownOperator .. => "unknown operator"
  | .missingInput .. => "missing required input"
  | .emptyInput .. => "input is empty"
  | .inputTypeMismatch .. => "input type mismatch"
  | .operatorFailed .. => "operator failed"
  | .truncated .. => "iterating inputs differ in length, truncating to the shortest"
  | .reregistered .. => "operator re-registered, replacing previous definition"
  | .violated v => v.message

/-- What a notice is about, as pairs of a field and its text. -/
def fields : Notice → List (String × String)
  | .invalidFilter node error => [("node", toString node), ("err", error.message)]
  | .invalidCompute node error => [("node", toString node), ("err", error.message)]
  | .unknownOperator node operator => [("node", toString node), ("operator", operator)]
  | .missingInput operator source => [("operator", operator), ("param", source)]
  | .emptyInput operator source => [("operator", operator), ("param", source)]
  | .inputTypeMismatch operator source expected actual =>
    [("operator", operator), ("param", source), ("expected", expected.name), ("actual", actual.name)]
  | .operatorFailed process reason => [("process", toString process), ("reason", reason)]
  | .truncated operator count => [("operator", operator), ("count", toString count)]
  | .reregistered operator => [("operator", operator)]
  | .violated _ => []

end Notice

/-- A run of a kernel: the operator, what it was given, and whether it refused. -/
structure Invocation where
  operator : String
  call : KernelCall
  refused : Bool
  deriving DecidableEq

/-- Everything that one call reports, in the order in which it happened. -/
structure Journal where
  events : List Event := []
  notices : List Notice := []
  invocations : List Invocation := []
  checked : List Invariant := []
  violation : Option Violation := none
  deriving DecidableEq

namespace Journal

/-- The journal with a callback noted. -/
def event (j : Journal) (e : Event) : Journal := if j.violation.isSome then j else { j with events := j.events ++ [e] }

/-- The journal with a notice noted. -/
def notice (j : Journal) (n : Notice) : Journal :=
  if j.violation.isSome then j else { j with notices := j.notices ++ [n] }

/-- The journal with runs of kernels noted. -/
def invoke (j : Journal) (is : List Invocation) : Journal :=
  if j.violation.isSome then j else { j with invocations := j.invocations ++ is }

/-- The journal with the check of an invariant noted: that it held, or that it was violated. -/
def check (j : Journal) (i : Invariant) (holds : Bool) (context : String) : Journal :=
  if j.violation.isSome then j
  else if holds then { j with checked := j.checked ++ [i] }
  else
    let v : Violation := ⟨i, context⟩
    { j with notices := j.notices ++ [.violated v], violation := some v }

end Journal

/-- Asks that invariants of the given numbers have been checked; those that have not are the error, in the order asked for. -/
def contractTest (test : String) (required : List Nat) (checked : List Invariant) : Except Error Unit :=
  let missing := required.filter fun id => !checked.any (·.id = id)
  if missing.isEmpty then .ok () else .error (.uncheckedInvariants test missing)

end Dataflow
