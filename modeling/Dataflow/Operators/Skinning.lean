import Dataflow.Operators.Transform

/-!
# Operators for skinning

Points and directions moved by a blend of up to four bones: each weight scales the transform of one bone.
-/

namespace Dataflow

namespace Operators

/-- The blend of bone transforms by four weights. A weight of zero takes no part, and a bone that is not given or is negative
counts as the first. -/
def blend (indices : List Int32) (weights : Vec4) (bones : List Float32) : Mat4 :=
  (weights.toList.zipIdx).foldl
    (fun acc (weight, slot) =>
      if weight == 0 then acc
      else acc.add ((Mat4.ofListAt bones ((indices[slot]?).getD 0).toNatClampNeg).scale weight))
    Mat4.zero

/-- The blend of arguments 1 to 3. -/
def blended (args : List View) : Mat4 :=
  blend (view args 1).ints (.ofList .zero (view args 2).floats) (view args 3).floats

/-- The parameters of skinning, the first being what is moved. -/
def skinParams (source : String) : List ParamSpec :=
  [param "float3" source, param "int4" "boneIdx", param "float4" "boneWeight",
    { type := "float4x4", source := "boneXform", array := true }]

/-- A point moved by a blend of bones. -/
def skinPosition : Descriptor :=
  floatResult "float3" (skinParams "pos") fun args => ((blended args).point (vec3 args 0)).toList

/-- A direction turned by a blend of bones and brought to length one. -/
def skinDirection : Descriptor :=
  floatResult "float3" (skinParams "dir") fun args => ((blended args).direction (vec3 args 0)).normalizeOrZero.toList

end Operators

end Dataflow
