import Dataflow.Data.Kind

/-!
# Errors

The causes for which this library refuses an input, and their wording in `Error.message`.
-/

namespace Dataflow

/-- What is wrong with the declaration of an operator. -/
inductive OperatorFlaw where
  | noOutputs
  | unknownSource (source : String)
  | unknownKey (key : String)
  | missingKey (source : String)
  | noAllocation
  | textureFromCore
  | noKernel
  deriving DecidableEq, Repr

/-- Why an input is refused. -/
inductive Error where
  | filterSyntax (text : String)
  | computeSyntax (text : String)
  | mappingSyntax (text : String)
  | unknownType (name : String)
  | invalidOperator (name : String) (flaw : OperatorFlaw)
  | storageMismatch (expected : DataType) (actual : Storage)
  | notATexture (actual : DataType)
  | unknownEntry (id : Nat)
  | invalidNode
  | notADataNode
  | cycle
  | sourceAndChildren
  | notAChild
  | unknownOperator (name : String)
  | missingNode (name : String)
  | cyclicSchedule
  | uncheckedInvariants (test : String) (ids : List Nat)
  deriving DecidableEq, Repr

/-- The wording of a flaw. -/
def OperatorFlaw.message : OperatorFlaw → String
  | .noOutputs => "no outputs declared"
  | .unknownSource source => s!"mapping source '{source}' is not a param"
  | .unknownKey key => s!"key source '{key}' is not a param"
  | .missingKey source => s!"sequence argument '{source}' needs a key source"
  | .noAllocation => "custom allocation declared without alloc"
  | .textureFromCore => "texture outputs need a whole-array evaluate"
  | .noKernel => "neither evaluate nor evaluate_core given"

/-- The wording of an error. -/
def Error.message : Error → String
  | .filterSyntax text => s!"invalid filter syntax: '{text}'"
  | .computeSyntax text => s!"invalid compute syntax: '{text}'"
  | .mappingSyntax text => s!"invalid mapping syntax: '{text}'"
  | .unknownType name => s!"unknown data type '{name}'"
  | .invalidOperator name flaw => s!"invalid operator '{name}': " ++ flaw.message
  | .storageMismatch expected actual => "type mismatch: expected " ++ expected.name ++ ", got " ++ actual.name
  | .notATexture actual => "type mismatch: expected " ++ DataType.texture.name ++ ", got " ++ actual.name
  | .unknownEntry id => "unknown data entry " ++ toString id
  | .invalidNode => "node does not exist"
  | .notADataNode => "node is not a data node"
  | .cycle => "edge would create a cycle"
  | .sourceAndChildren => "data node cannot have both a source node and children"
  | .notAChild => "node is not a child of the given parent"
  | .unknownOperator name => s!"unknown operator: {name}"
  | .missingNode name => s!"no node named {name}"
  | .cyclicSchedule => "cycle detected between process nodes"
  | .uncheckedInvariants test ids =>
    s!"Contract test '{test}' failed: invariants not enforced: [" ++ ", ".intercalate (ids.map toString) ++ "]"

/-- The data type that `text` names, blanks around it aside. -/
def DataType.parse (text : String) : Except Error DataType :=
  let name := String.ofList (trim text.toList)
  match DataType.ofName? name with
  | some type => .ok type
  | none => .error (.unknownType name)

end Dataflow
