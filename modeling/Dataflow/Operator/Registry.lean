import Dataflow.Arena
import Dataflow.Journal
import Dataflow.Operator.Descriptor

/-!
# Registries of operators

A registry holds operators by name. Registering under a name in use replaces the operator of that name, which is worth a
notice.
-/

namespace Dataflow

/-- Operators by name. -/
structure Registry where
  operators : NameMap Operator := ∅

namespace Registry

/-- The registry without operators. -/
def empty : Registry := {}

instance : Inhabited Registry := ⟨empty⟩

/-- The operator of a name. -/
def get? (r : Registry) (name : String) : Option Operator := r.operators[name]?

/-- Whether there is an operator of a name. -/
def contains (r : Registry) (name : String) : Bool := r.operators.contains name

/-- The names in ascending order. -/
def names (r : Registry) : List String := r.operators.keys

/-- The registry with an operator under a name, once its descriptor is checked, and a notice when it replaces another. -/
def register (r : Registry) (name : String) (d : Descriptor) : Except Error (Registry × List Notice) := do
  let op ← Operator.ofDescriptor name d
  return ({ operators := r.operators.insert name op }, if r.contains name then [.reregistered name] else [])

/-- The registry with operators registered in turn, and the notices that this is worth. -/
def registerAll (r : Registry) (descriptors : List (String × Descriptor)) : Except Error (Registry × List Notice) :=
  descriptors.foldlM
    (fun (r, log) (name, d) => do
      let (r, more) ← r.register name d
      return (r, log ++ more)) (r, [])

end Registry

end Dataflow
