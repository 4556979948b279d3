/-!
# Vectors of floats

Vectors of three and of four single-precision floats. Every operation rounds each step to the nearest float, in the order in
which it is written here, so that results are fixed to the last bit.
-/

namespace Dataflow

/-- A vector of three floats. -/
structure Vec3 where
  x : Float32
  y : Float32
  z : Float32
  deriving DecidableEq

/-- A vector of four floats. -/
structure Vec4 where
  x : Float32
  y : Float32
  z : Float32
  w : Float32
  deriving DecidableEq

namespace Vec3

/-- The zero vector. -/
def zero : Vec3 := ⟨0, 0, 0⟩

/-- The vector of ones. -/
def one : Vec3 := ⟨1, 1, 1⟩

/-- The vector of the first three scalars, or zero when there are fewer. -/
def ofList : List Float32 → Vec3
  | x :: y :: z :: _ => ⟨x, y, z⟩
  | _ => zero

/-- The components in order. -/
def toList (v : Vec3) : List Float32 := [v.x, v.y, v.z]

instance : Add Vec3 := ⟨fun a b => ⟨a.x + b.x, a.y + b.y, a.z + b.z⟩⟩

instance : Sub Vec3 := ⟨fun a b => ⟨a.x - b.x, a.y - b.y, a.z - b.z⟩⟩

instance : Neg Vec3 := ⟨fun a => ⟨-a.x, -a.y, -a.z⟩⟩

/-- Every component times `s`. -/
def scale (v : Vec3) (s : Float32) : Vec3 := ⟨v.x * s, v.y * s, v.z * s⟩

/-- The sum of the products of the components. -/
def dot (a b : Vec3) : Float32 := a.x * b.x + a.y * b.y + a.z * b.z

/-- The point at weight `s` on the way from `a` to `b`. -/
def lerp (a b : Vec3) (s : Float32) : Vec3 := a.scale (1 - s) + b.scale s

/-- The vector brought to length one, or zero when its length has no finite positive reciprocal. -/
def normalizeOrZero (v : Vec3) : Vec3 :=
  let r := 1 / (dot v v).sqrt
  if r.isFinite && 0 < r then v.scale r else zero

end Vec3

namespace Vec4

/-- The zero vector. -/
def zero : Vec4 := ⟨0, 0, 0, 0⟩

/-- The vector of the first four scalars, or `fallback` when there are fewer. -/
def ofList (fallback : Vec4) : List Float32 → Vec4
  | x :: y :: z :: w :: _ => ⟨x, y, z, w⟩
  | _ => fallback

/-- The components in order. -/
def toList (v : Vec4) : List Float32 := [v.x, v.y, v.z, v.w]

instance : Add Vec4 := ⟨fun a b => ⟨a.x + b.x, a.y + b.y, a.z + b.z, a.w + b.w⟩⟩

/-- Every component times `s`. -/
def scale (v : Vec4) (s : Float32) : Vec4 := ⟨v.x * s, v.y * s, v.z * s, v.w * s⟩

/-- Every component divided by `s`. -/
def divide (v : Vec4) (s : Float32) : Vec4 := ⟨v.x / s, v.y / s, v.z / s, v.w / s⟩

/-- The sum of the products of the components: first and third, second and fourth, then the two sums. -/
def dot (a b : Vec4) : Float32 := (a.x * b.x + a.z * b.z) + (a.y * b.y + a.w * b.w)

/-- The vector divided by its length. -/
def normalize (v : Vec4) : Vec4 := v.divide (dot v v).sqrt

end Vec4

end Dataflow
