import Dataflow.Text

/-!
# Data types and their storage classes

A value that flows through a graph has one of nine data types. The type fixes the storage class of its scalars and how many
scalars make one tuple; operators that broadcast advance tuple by tuple.
-/

namespace Dataflow

/-- The class of the scalars that a value is stored as. -/
inductive Storage where
  | float | int | bool | texture
  deriving DecidableEq, Repr, Inhabited

/-- The type of a value. -/
inductive DataType where
  | float | float2 | float3 | float4 | float4x4 | int | int4 | bool | texture
  deriving DecidableEq, Repr, Inhabited

/-- The word for a storage class in a report of a mismatch. -/
def Storage.name : Storage → String
  | .float => "Float"
  | .int => "Int"
  | .bool => "Bool"
  | .texture => "Texture"

/-- How many scalars make one tuple; a matrix is sixteen scalars, column by column. -/
def DataType.tupleSize : DataType → Nat
  | .float | .int | .bool | .texture => 1
  | .float2 => 2
  | .float3 => 3
  | .float4 | .int4 => 4
  | .float4x4 => 16

/-- The storage class of a type's values. -/
def DataType.storage : DataType → Storage
  | .float | .float2 | .float3 | .float4 | .float4x4 => .float
  | .int | .int4 => .int
  | .bool => .bool
  | .texture => .texture

/-- The name of a type, as operator declarations write it. -/
def DataType.name : DataType → String
  | .float => "float"
  | .float2 => "float2"
  | .float3 => "float3"
  | .float4 => "float4"
  | .float4x4 => "float4x4"
  | .int => "int"
  | .int4 => "int4"
  | .bool => "bool"
  | .texture => "texture"

/-- Every data type. -/
def DataType.all : List DataType := [.float, .float2, .float3, .float4, .float4x4, .int, .int4, .bool, .texture]

/-- The data type of a name. -/
def DataType.ofName? (name : String) : Option DataType := DataType.all.find? (·.name = name)

/-- A tuple is never empty. -/
theorem DataType.tupleSize_pos (t : DataType) : 0 < t.tupleSize := by cases t <;> decide

theorem DataType.mem_all (t : DataType) : t ∈ DataType.all := by cases t <;> decide

/-- A type is found under its own name. -/
theorem DataType.ofName?_name (t : DataType) : DataType.ofName? t.name = some t := by cases t <;> decide

end Dataflow
