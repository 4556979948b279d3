import Dataflow.Data.Payload
import Dataflow.Error

/-!
# Entries: typed values

An entry is a payload under a data type. The type never changes, and the payload is always stored in the type's class: an
entry is only ever built from a payload of that class, and a value of another class is refused.
-/

namespace Dataflow

/-- A payload of the storage class of its type. -/
structure Entry where
  type : DataType
  payload : Payload
  storage_eq : payload.storage = type.storage

namespace Entry

/-- An entry of a type without scalars, or a texture without an image. -/
def empty (type : DataType) : Entry := ⟨type, .empty type.storage, Payload.storage_empty _⟩

instance : Inhabited Entry := ⟨empty .float⟩

/-- An entry of a type that holds a payload, which has to be of the type's class. -/
def ofPayload (type : DataType) (payload : Payload) : Except Error Entry :=
  if h : payload.storage = type.storage then .ok ⟨type, payload, h⟩
  else .error (.storageMismatch type payload.storage)

/-- An entry that holds a texture. -/
def ofTexture (t : Texture) : Entry := ⟨.texture, .texture t, rfl⟩

/-- An entry that holds booleans. -/
def ofBools (l : List Bool) : Entry := ⟨.bool, .bools l, rfl⟩

/-- The entry with a new payload, which has to be of the type's class. -/
def setPayload (e : Entry) (payload : Payload) : Except Error Entry := ofPayload e.type payload

/-- The entry with its texture changed by `f`; an entry of another type is refused. -/
def mapTexture (f : Texture → Texture) (e : Entry) : Except Error Entry :=
  match e.payload with
  | .texture t => .ok (ofTexture (f t))
  | _ => .error (.notATexture e.type)

/-- The entry with its scalars resized to `n`. -/
def resize (n : Nat) (e : Entry) : Entry := ⟨e.type, e.payload.resize n, by simp [e.storage_eq]⟩

/-- The entry with a computed payload written over its own. -/
def write (new : Payload) (e : Entry) : Entry := ⟨e.type, new.write e.payload, by simp [e.storage_eq]⟩

/-- The number of whole tuples of the entry's type. -/
def tupleCount (e : Entry) : Nat := e.payload.tupleCount e.type.tupleSize

/-- An entry is empty when its payload is. -/
def isEmpty (e : Entry) : Bool := e.payload.isEmpty

/-- An entry is loading while it holds a texture that is. -/
def isLoading (e : Entry) : Bool :=
  match e.payload with
  | .texture t => t.loading
  | _ => false

@[simp] theorem type_write (new : Payload) (e : Entry) : (e.write new).type = e.type := rfl

@[simp] theorem type_resize (n : Nat) (e : Entry) : (e.resize n).type = e.type := rfl

/-- A payload is accepted exactly when it is of the type's class. -/
theorem isOk_ofPayload_iff (type : DataType) (p : Payload) :
    (ofPayload type p).isOk = true ↔ p.storage = type.storage := by
  unfold ofPayload
  split <;> simp_all [Except.isOk, Except.toBool]

/-- A new payload leaves the type. -/
theorem type_of_setPayload {e e' : Entry} {p : Payload} (h : e.setPayload p = .ok e') : e'.type = e.type := by
  unfold setPayload ofPayload at h
  split at h
  · cases h; rfl
  · cases h

end Entry

end Dataflow
