import Dataflow.Linear.Matrix
import Dataflow.Operators.Keyframe

/-!
# Operators on transforms

Transforms from translation, rotation, scale and center; products of transforms; and forward kinematics, which turns the
transforms of bones relative to their parents into transforms relative to the root.
-/

namespace Dataflow

namespace Operators

/-- The matrix at the start of argument `i`. -/
def matrix (args : List View) (i : Nat) : Mat4 := .ofListAt (view args i).floats 0

/-- The transform of a translation, a rotation, a scale and the center of the latter two. -/
def transformOf (translation : Vec3) (rotation : Quat) (scale center : Vec3) : Mat4 :=
  ((Mat4.translation (translation + center)).mul (Mat4.scaleRotation scale rotation.normalize)).mul
    (Mat4.translation (-center))

/-- A transform from four optional parts; without a scale nothing is scaled. -/
def createTransform : Descriptor :=
  floatResult "float4x4"
    [{ type := "float3", source := "translation", optional := true }, { type := "float4", source := "rotation", optional := true },
      { type := "float3", source := "scale", optional := true }, { type := "float3", source := "center", optional := true }]
    fun args =>
      let scale := if (view args 2).isNone then Vec3.one else vec3 args 2
      (transformOf (vec3 args 0) (quat args 1) scale (vec3 args 3)).toList

/-- The product of two transforms. -/
def mul : Descriptor :=
  floatResult "float4x4" [param "float4x4" "value1", param "float4x4" "value2"] fun args =>
    ((matrix args 0).mul (matrix args 1)).toList

/-- The transforms of bones `globals.length` and following relative to the root, after those of the bones before them: the
product of the parent's and the bone's own, or its own for a bone without a parent. A parent has to come before its bones;
where one does not, there is no answer. The product is a parameter. -/
def pathProducts {M : Type} (product : M → M → M) (parents : List Int32) : List M → List M → Option (List M)
  | globals, [] => some globals
  | globals, own :: rest =>
    match parents[globals.length]? with
    | none => pathProducts product parents (globals ++ [own]) rest
    | some parent =>
      if parent < 0 then pathProducts product parents (globals ++ [own]) rest
      else match globals[parent.toNatClampNeg]? with
        | none => none
        | some above => pathProducts product parents (globals ++ [product above own]) rest

/-- The whole matrices that a list of scalars holds. -/
def matrices (l : List Float32) : List Mat4 := (List.range (l.length / 16)).map (Mat4.ofListAt l)

/-- The forward kinematics of a table of parents and a list of scalars, written into an output: as many whole matrices as there
are bones and room for. -/
def kinematics (product : Mat4 → Mat4 → Mat4) : Evaluation := fun _ args outs =>
  match pathProducts product (view args 0).ints [] (matrices (view args 1).floats) with
  | none => .error "parent bone must precede its child"
  | some globals =>
    .ok (outs.take 1 |>.map fun out => .floats ((globals.take (out.floatScalars.length / 16)).flatMap Mat4.toList))

/-- Transforms relative to the root from parents and transforms relative to the parents; a negative parent marks a root. -/
def forwardKinematics : Descriptor where
  outputs := [{ type := "float4x4", name := "result", custom := true }]
  params := [{ type := "int", source := "parent", array := true }, { type := "float4x4", source := "xform", array := true }]
  alloc := some fun args _ => [(view args 1).floats.length / 16 * 16]
  evaluate := some (kinematics Mat4.mul)

end Operators

end Dataflow
