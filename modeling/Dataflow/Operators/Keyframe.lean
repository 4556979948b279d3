import Dataflow.Linear.Rotation
import Dataflow.Operators.Vector

/-!
# Operators on keyframes

Interpolation along a sequence of keyed values: the value before a key and the value after it, blended by the weight of the key
between them.
-/

namespace Dataflow

namespace Operators

/-- A descriptor of an operator that reads the parameter `sequence` around the parameter `key`. -/
def keyframes (type : String) (f : List View → List Float32) : Descriptor :=
  { floatResult type [param type "sequence", param "float" "key"] f with
    mapping := some
      [{ source := "sequence", access := .floor, key := some "key" },
        { source := "sequence", access := .ceiling, key := some "key" },
        { source := "sequence", access := .weight, key := some "key" }] }

/-- The rotation at the start of argument `i`. -/
def quat (args : List View) (i : Nat) : Quat := .ofList (view args i).floats

/-- A vector interpolated along a sequence. -/
def lerpSequence : Descriptor :=
  keyframes "float3" fun args => ((vec3 args 0).lerp (vec3 args 1) (scalar args 2)).toList

/-- A rotation interpolated along a sequence. -/
def slerpSequence : Descriptor :=
  keyframes "float4" fun args => (Quat.slerp (quat args 0) (quat args 1) (scalar args 2)).toList

end Operators

end Dataflow
