import Dataflow.Linear.Rotation

/-!
# Matrices of four columns

Transforms of space as matrices of four columns. A list of scalars holds matrices one after the other, sixteen scalars each,
column by column.
-/

namespace Dataflow

/-- A matrix of four columns. -/
structure Mat4 where
  x : Vec4
  y : Vec4
  z : Vec4
  w : Vec4
  deriving DecidableEq

namespace Mat4

/-- The transform that moves nothing. -/
def identity : Mat4 := ⟨⟨1, 0, 0, 0⟩, ⟨0, 1, 0, 0⟩, ⟨0, 0, 1, 0⟩, ⟨0, 0, 0, 1⟩⟩

/-- The matrix of zeros. -/
def zero : Mat4 := ⟨.zero, .zero, .zero, .zero⟩

/-- The matrix at position `i` of a list of scalars, or the identity when the list ends before it does. -/
def ofListAt (l : List Float32) (i : Nat) : Mat4 :=
  match (l.drop (i * 16)).take 16 with
  | [a, b, c, d, e, f, g, h, i, j, k, l, m, n, o, p] => ⟨⟨a, b, c, d⟩, ⟨e, f, g, h⟩, ⟨i, j, k, l⟩, ⟨m, n, o, p⟩⟩
  | _ => identity

/-- The sixteen scalars, column by column. -/
def toList (m : Mat4) : List Float32 := m.x.toList ++ m.y.toList ++ m.z.toList ++ m.w.toList

/-- The matrix applied to a vector. -/
def apply (m : Mat4) (v : Vec4) : Vec4 := m.x.scale v.x + m.y.scale v.y + m.z.scale v.z + m.w.scale v.w

/-- The product: `a` applied to each column of `b`. -/
def mul (a b : Mat4) : Mat4 := ⟨a.apply b.x, a.apply b.y, a.apply b.z, a.apply b.w⟩

/-- The sum, component by component. -/
def add (a b : Mat4) : Mat4 := ⟨a.x + b.x, a.y + b.y, a.z + b.z, a.w + b.w⟩

/-- Every component times `s`. -/
def scale (m : Mat4) (s : Float32) : Mat4 := ⟨m.x.scale s, m.y.scale s, m.z.scale s, m.w.scale s⟩

/-- The image of a point: the last column moves it. -/
def point (m : Mat4) (p : Vec3) : Vec3 :=
  let v := m.x.scale p.x + m.y.scale p.y + m.z.scale p.z + m.w
  ⟨v.x, v.y, v.z⟩

/-- The image of a direction: the last column has no part in it. -/
def direction (m : Mat4) (p : Vec3) : Vec3 :=
  let v := m.x.scale p.x + m.y.scale p.y + m.z.scale p.z
  ⟨v.x, v.y, v.z⟩

/-- The transform that moves by `t`. -/
def translation (t : Vec3) : Mat4 := { identity with w := ⟨t.x, t.y, t.z, 1⟩ }

/-- The transform that scales by `s` along the axes and then rotates by `q`. -/
def scaleRotation (s : Vec3) (q : Quat) : Mat4 :=
  let x2 := q.x + q.x
  let y2 := q.y + q.y
  let z2 := q.z + q.z
  let xx := q.x * x2
  let xy := q.x * y2
  let xz := q.x * z2
  let yy := q.y * y2
  let yz := q.y * z2
  let zz := q.z * z2
  let wx := q.w * x2
  let wy := q.w * y2
  let wz := q.w * z2
  ⟨Vec4.scale ⟨1 - (yy + zz), xy + wz, xz - wy, 0⟩ s.x, Vec4.scale ⟨xy - wz, 1 - (xx + zz), yz + wx, 0⟩ s.y,
    Vec4.scale ⟨xz + wy, yz - wx, 1 - (xx + yy), 0⟩ s.z, ⟨0, 0, 0, 1⟩⟩

end Mat4

end Dataflow
