import Dataflow.Operator.Registry
import Dataflow.Operators.Skinning

/-!
# The built-in operators

The operators that every registry starts with unless it is asked to start empty.
-/

namespace Dataflow

namespace Operators

/-- The built-in operators by name. -/
def builtin : List (String × Descriptor) :=
  [("xflow.add", add), ("xflow.sub", sub), ("xflow.normalize", normalize), ("xflow.lerp", lerp), ("xflow.morph", morph),
    ("xflow.lerpSeq", lerpSequence), ("xflow.slerpSeq", slerpSequence), ("xflow.createTransform", createTransform),
    ("xflow.mul", mul), ("xflow.forwardKinematics", forwardKinematics), ("xflow.skinPosition", skinPosition),
    ("xflow.skinDirection", skinDirection)]

end Operators

/-- The registry of the built-in operators. -/
def Registry.builtin : Registry := (((Registry.empty.registerAll Operators.builtin).toOption).map (·.1)).getD .empty

end Dataflow
