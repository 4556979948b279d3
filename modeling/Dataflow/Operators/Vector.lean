import Dataflow.Linear.Vector
import Dataflow.Operator.Descriptor

/-!
# Operators on vectors

Sums, differences, unit vectors and weighted blends of float triples, one tuple at a time.
-/

namespace Dataflow

namespace Operators

/-- The view of argument `i`; absent past the last one. -/
def view (args : List View) (i : Nat) : View := (args[i]?).getD none

/-- The vector at the start of argument `i`. -/
def vec3 (args : List View) (i : Nat) : Vec3 := .ofList (view args i).floats

/-- The first scalar of argument `i`, or zero. -/
def scalar (args : List View) (i : Nat) : Float32 := ((view args i).floats.head?).getD 0

/-- A required parameter. -/
def param (type source : String) : ParamSpec := { type, source }

/-- A core with one float output, whose scalars it computes from the arguments. -/
def floatCore (f : List View → List Float32) : Core := fun args _ => [.floats (f args)]

/-- A descriptor with one output `result` and a core that computes its scalars. -/
def floatResult (type : String) (params : List ParamSpec) (f : List View → List Float32) : Descriptor where
  outputs := [{ type, name := "result" }]
  params := params
  core := some (floatCore f)

/-- The sum of two vectors. -/
def add : Descriptor :=
  floatResult "float3" [param "float3" "value1", param "float3" "value2"] fun args => (vec3 args 0 + vec3 args 1).toList

/-- The difference of two vectors. -/
def sub : Descriptor :=
  floatResult "float3" [param "float3" "value1", param "float3" "value2"] fun args => (vec3 args 0 - vec3 args 1).toList

/-- A vector brought to length one. -/
def normalize : Descriptor :=
  floatResult "float3" [param "float3" "value"] fun args => (vec3 args 0).normalizeOrZero.toList

/-- The blend of two vectors by a weight. -/
def lerp : Descriptor :=
  floatResult "float3" [param "float3" "value1", param "float3" "value2", param "float" "weight"] fun args =>
    ((vec3 args 0).lerp (vec3 args 1) (scalar args 2)).toList

/-- A vector with a weighted offset added, the step of a blend shape. -/
def morph : Descriptor :=
  floatResult "float3" [param "float3" "value", param "float3" "valueAdd", param "float" "weight"] fun args =>
    (vec3 args 0 + (vec3 args 1).scale (scalar args 2)).toList

end Operators

end Dataflow
