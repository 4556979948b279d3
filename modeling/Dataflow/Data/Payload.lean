import Dataflow.Data.Kind

/-!
# Payloads: the scalars or the texture that a value holds

A payload is a list of scalars of one storage class, or a texture. The operations are those that execution needs: counting
whole tuples, cutting a window, resizing with zeros, and writing a computed payload over a stored one without changing its
class or its length.
-/

namespace Dataflow

/-- How texture coordinates outside the image are treated. -/
inductive Wrap where
  | clamp | repeated
  deriving DecidableEq, Repr, Inhabited

/-- How texels are blended. -/
inductive Blend where
  | nearest | linear
  deriving DecidableEq, Repr, Inhabited

/-- How a texture is sampled: it is clamped and blended linearly, without mipmaps, unless it says otherwise. -/
structure Sampling where
  horizontal : Wrap := .clamp
  vertical : Wrap := .clamp
  minify : Blend := .linear
  magnify : Blend := .linear
  mipmap : Bool := false
  deriving DecidableEq, Repr, Inhabited

/-- A reference to an image that an external loader owns. -/
structure Image where
  id : Nat
  width : Nat
  height : Nat
  deriving DecidableEq, Repr, Inhabited

/-- A texture: how it is sampled, its image once there is one, and whether the loader has still to deliver it. -/
structure Texture where
  sampling : Sampling := {}
  image : Option Image := none
  loading : Bool := false
  deriving DecidableEq, Repr, Inhabited

/-- What a value holds. -/
inductive Payload where
  | floats (scalars : List Float32)
  | ints (scalars : List Int32)
  | bools (scalars : List Bool)
  | texture (texture : Texture)
  deriving DecidableEq

/-- The list cut to its first `n` members, or filled up with `fill` to `n` members. -/
def fitTo {α : Type} (n : Nat) (fill : α) (l : List α) : List α := l.take n ++ List.replicate (n - l.length) fill

/-- The `size` members from position `start` on, or none of them when the list ends before the window does. -/
def window {α : Type} (start size : Nat) (l : List α) : List α :=
  if start + size ≤ l.length then (l.drop start).take size else []

/-- The list with its members replaced, as far as they go, by those of `new`; the length stays. -/
def overwrite {α : Type} (new old : List α) : List α := new.take old.length ++ old.drop new.length

namespace Payload

/-- No scalars of a class; of the class of textures, a texture without an image. -/
def empty : Storage → Payload
  | .float => .floats []
  | .int => .ints []
  | .bool => .bools []
  | .texture => .texture {}

/-- The storage class of a payload. -/
def storage : Payload → Storage
  | .floats _ => .float
  | .ints _ => .int
  | .bools _ => .bool
  | .texture _ => .texture

/-- The number of scalars; a texture counts as one. -/
def size : Payload → Nat
  | .floats l => l.length
  | .ints l => l.length
  | .bools l => l.length
  | .texture _ => 1

/-- A payload is empty when it has no scalar, or is a texture without an image. -/
def isEmpty : Payload → Bool
  | .floats l => l.isEmpty
  | .ints l => l.isEmpty
  | .bools l => l.isEmpty
  | .texture t => t.image.isNone

/-- The number of whole tuples of `tupleSize` scalars; a texture is one tuple. -/
def tupleCount (tupleSize : Nat) : Payload → Nat
  | .texture _ => 1
  | p => p.size / max tupleSize 1

/-- The float scalars; there are none in a payload of another class. -/
def floatScalars : Payload → List Float32
  | .floats l => l
  | _ => []

/-- The integer scalars; there are none in a payload of another class. -/
def intScalars : Payload → List Int32
  | .ints l => l
  | _ => []

/-- The payload with `n` scalars, cut or filled up with zeros; a texture stays as it is. -/
def resize (n : Nat) : Payload → Payload
  | .floats l => .floats (fitTo n 0 l)
  | .ints l => .ints (fitTo n 0 l)
  | .bools l => .bools (fitTo n false l)
  | .texture t => .texture t

/-- The window of `size` scalars from `start` on; a texture is passed whole. -/
def window (start size : Nat) : Payload → Payload
  | .floats l => .floats (Dataflow.window start size l)
  | .ints l => .ints (Dataflow.window start size l)
  | .bools l => .bools (Dataflow.window start size l)
  | .texture t => .texture t

/-- The payload `old` with what `new` computed written over it. Neither the class nor the number of scalars changes: scalars
of another class are not written, and neither are those past the end. -/
def write (new old : Payload) : Payload :=
  match new, old with
  | .floats l, .floats l' => .floats (overwrite l l')
  | .ints l, .ints l' => .ints (overwrite l l')
  | .bools l, .bools l' => .bools (overwrite l l')
  | .texture t, .texture _ => .texture t
  | _, p => p

/-- The payloads `olds` with what `news` computed written over them, position by position. -/
def writeAll : List Payload → List Payload → List Payload
  | new :: news, old :: olds => new.write old :: writeAll news olds
  | _, olds => olds

/-- The payload `old` with what `new` computed written over the window of `size` scalars from `start` on; nothing is written
when there is no such window. -/
def writeAt (start size : Nat) (new old : Payload) : Payload :=
  match new, old with
  | .floats l, .floats l' => .floats (splice l l')
  | .ints l, .ints l' => .ints (splice l l')
  | .bools l, .bools l' => .bools (splice l l')
  | .texture t, .texture _ => .texture t
  | _, p => p
where
  /-- The list with the window overwritten. -/
  splice {α : Type} (l l' : List α) : List α :=
    if start + size ≤ l'.length then
      l'.take start ++ overwrite l ((l'.drop start).take size) ++ l'.drop (start + size)
    else l'

@[simp] theorem storage_empty (s : Storage) : (empty s).storage = s := by cases s <;> rfl

@[simp] theorem storage_resize (n : Nat) (p : Payload) : (p.resize n).storage = p.storage := by cases p <;> rfl

@[simp] theorem storage_write (p q : Payload) : (write p q).storage = q.storage := by cases p <;> cases q <;> rfl

@[simp] theorem storage_writeAt (start size : Nat) (p q : Payload) : (writeAt start size p q).storage = q.storage := by
  cases p <;> cases q <;> rfl

theorem length_fitTo {α : Type} (n : Nat) (fill : α) (l : List α) : (fitTo n fill l).length = n := by
  simp only [fitTo, List.length_append, List.length_take, List.length_replicate]
  omega

theorem length_overwrite {α : Type} (new old : List α) : (overwrite new old).length = old.length := by
  simp only [overwrite, List.length_append, List.length_take, List.length_drop]
  omega

/-- A resized payload has the size asked for, unless it is a texture. -/
theorem size_resize (n : Nat) (p : Payload) (h : p.storage ≠ .texture) : (p.resize n).size = n := by
  cases p <;> first | exact length_fitTo _ _ _ | exact absurd rfl h

/-- Writing keeps the number of scalars. -/
theorem size_write (p q : Payload) : (write p q).size = q.size := by
  cases p <;> cases q <;> first | rfl | exact length_overwrite _ _

end Payload

end Dataflow
