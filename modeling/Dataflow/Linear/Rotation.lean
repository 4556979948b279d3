import Dataflow.Linear.Vector

/-!
# Rotations as quaternions

A quaternion is a vector `x, y, z, w` of four floats. The arc cosine and the sine that spherical interpolation needs are
polynomials, evaluated from the highest coefficient down.
-/

namespace Dataflow

/-- A rotation; the scalar part stands last. -/
abbrev Quat := Vec4

namespace Quat

/-- The rotation by nothing. -/
def identity : Quat := ⟨0, 0, 0, 1⟩

/-- The rotation of the first four scalars, or the identity when there are fewer. -/
def ofList (l : List Float32) : Quat := Vec4.ofList identity l

/-- The polynomial with these coefficients, highest first, at `x`. -/
def polynomial (coefficients : List Float32) (x : Float32) : Float32 :=
  match coefficients with
  | [] => 0
  | c :: cs => cs.foldl (fun acc c => acc * x + c) c

/-- The coefficients of the arc cosine, to be multiplied by the square root of one less the argument. -/
def arcCosineCoefficients : List Float32 :=
  [-0.0012624911, 0.00667009, -0.017088126, 0.03089188, -0.050174303, 0.08897899, -0.2145988, 1.5707963]

/-- The coefficients of the sine over its argument, in the square of the argument. -/
def sineCoefficients : List Float32 :=
  [-2.3889859e-8, 2.7525562e-6, -0.00019840874, 0.008333331, -0.16666667, 1.0]

/-- The arc cosine of a number that is not negative. -/
def arcCosine (v : Float32) : Float32 :=
  let rest := 1 - v
  let rest := if rest < 0 then 0 else rest
  polynomial arcCosineCoefficients v * rest.sqrt

/-- The sine of an angle from zero to a quarter turn. -/
def sine (x : Float32) : Float32 := polynomial sineCoefficients (x * x) * x

/-- The cosine of an angle above which two rotations count as equal and are interpolated along the chord. -/
def chordLimit : Float32 := 1 - 1.1920929e-7

/-- The rotation at weight `s` on the shorter arc from `q` to `e`. -/
def slerp (q e : Quat) (s : Float32) : Quat :=
  let d := Vec4.dot q e
  let (e, d) := if d < 0 then (e.scale (-1), -d) else (e, d)
  if chordLimit < d then (q.scale (1 - s) + e.scale s).normalize
  else
    let angle := arcCosine d
    (q.scale (sine (angle * (1 - s))) + e.scale (sine (angle * s))).divide (sine (angle * 1))

end Quat

end Dataflow
