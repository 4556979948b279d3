import Dataflow.Operator.Basic

/-!
# Declaring an operator

A descriptor is an operator as its author writes it: types by name, arguments by the source of the parameter they read.
`Operator.ofDescriptor` checks it and resolves the names, reporting the first flaw in a fixed order: outputs, types, arguments one
by one, allocation, kernel.
-/

namespace Dataflow

/-- An output as declared. -/
structure OutputSpec where
  type : String
  name : String
  custom : Bool := false

/-- A parameter as declared. -/
structure ParamSpec where
  type : String
  source : String
  optional : Bool := false
  array : Bool := false

/-- An argument as declared: the source of the parameter it reads, how it reads it, and the source of the key. -/
structure ArgSpec where
  source : String
  access : Access := .first
  key : Option String := none
  array : Bool := false

/-- An operator as declared. Without a mapping the arguments are the parameters; of two kernels the core is preferred. -/
structure Descriptor where
  outputs : List OutputSpec := []
  params : List ParamSpec := []
  mapping : Option (List ArgSpec) := none
  alloc : Option (List View → Nat → List Nat) := none
  evaluate : Option Evaluation := none
  core : Option Core := none

namespace Descriptor

/-- The output, its type resolved. -/
def checkOutput (o : OutputSpec) : Except Error OutputDecl := do return ⟨← DataType.parse o.type, o.name, o.custom⟩

/-- The parameter, its type resolved. -/
def checkParam (p : ParamSpec) : Except Error ParamDecl := do
  return ⟨← DataType.parse p.type, p.source, p.optional, p.array⟩

/-- The position of the first parameter with this source. -/
def position? (params : List ParamDecl) (source : String) : Option Nat := params.findIdx? (·.source = source)

/-- The argument, its parameter and its key resolved. A key is needed, and looked at, only where the access depends on it. -/
def checkArg (params : List ParamDecl) (a : ArgSpec) : Except OperatorFlaw ArgDecl := do
  let param ← (position? params a.source).elim (.error (.unknownSource a.source)) .ok
  let key ← match a.access, a.key with
    | .first, _ => .ok none
    | _, some key => (position? params key).elim (.error (.unknownKey key)) fun k => .ok (some k)
    | _, none => .error (.missingKey a.source)
  return ⟨param, a.access, key, a.array || (params[param]?.any (·.array))⟩

/-- One argument for every parameter. -/
def defaultArgs (params : List ParamDecl) : List ArgDecl := params.mapIdx fun i p => ⟨i, .first, none, p.array⟩

/-- The kernel: the core, which no texture output may have, or else the evaluation. -/
def checkKernel (d : Descriptor) (outputs : List OutputDecl) : Except OperatorFlaw Kernel :=
  match d.core, d.evaluate with
  | some core, _ => if outputs.any (·.type = .texture) then .error .textureFromCore else .ok (.core core)
  | none, some evaluate => .ok (.evaluate evaluate)
  | none, none => .error .noKernel

end Descriptor

open Descriptor in
/-- The operator of a name and a descriptor, or the first flaw of the descriptor. -/
def Operator.ofDescriptor (name : String) (d : Descriptor) : Except Error Operator := do
  let flawed {α : Type} (r : Except OperatorFlaw α) : Except Error α := r.mapError (.invalidOperator name)
  if d.outputs.isEmpty then throw (.invalidOperator name .noOutputs)
  let outputs ← d.outputs.mapM checkOutput
  let params ← d.params.mapM checkParam
  let args ← match d.mapping with
    | none => pure (defaultArgs params)
    | some mapping => flawed (mapping.mapM (checkArg params))
  if outputs.any (·.custom) && d.alloc.isNone then throw (.invalidOperator name .noAllocation)
  let kernel ← flawed (checkKernel d outputs)
  return ⟨name, outputs, params, args, d.alloc, kernel⟩

end Dataflow
