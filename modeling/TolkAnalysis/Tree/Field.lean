/-!
# Fields of syntax nodes

A child may sit in a named slot of its parent. `Field` lists the slots and
`Field.label` their names in written trees.
-/

namespace TolkAnalysis

/-- A named slot for a child. -/
inductive Field where
  | name
  | annotations
  | arguments
  | receiver
  | receiverType
  | typeParameters
  | parameters
  | returnType
  | body
  | typeExpr
  | default
  | value
  | modifiers
  | underlyingType
  | packPrefix
  | backedType
  | path
  | lhs
  | assignedVal
  | redef
  | left
  | right
  | operatorName
  | argument
  | condition
  | consequence
  | alternative
  | count
  | tryBody
  | catchClause
  | catchVar1
  | catchVar2
  | catchBody
  | expr
  | castedTo
  | rhsType
  | inner
  | obj
  | field
  | callee
  | mutate
  | paramTypes
  | pattern
  | arms
  | excNo
deriving DecidableEq, Hashable, Inhabited

namespace Field

/-- The name of a slot in written trees. -/
def label : Field → String
  | .name => "name"
  | .annotations => "annotations"
  | .arguments => "arguments"
  | .receiver => "receiver"
  | .receiverType => "receiver_type"
  | .typeParameters => "type_parameters"
  | .parameters => "parameters"
  | .returnType => "return_type"
  | .body => "body"
  | .typeExpr => "type"
  | .default => "default"
  | .value => "value"
  | .modifiers => "modifiers"
  | .underlyingType => "underlying_type"
  | .packPrefix => "pack_prefix"
  | .backedType => "backed_type"
  | .path => "path"
  | .lhs => "lhs"
  | .assignedVal => "assigned_val"
  | .redef => "redef"
  | .left => "left"
  | .right => "right"
  | .operatorName => "operator_name"
  | .argument => "argument"
  | .condition => "condition"
  | .consequence => "consequence"
  | .alternative => "alternative"
  | .count => "count"
  | .tryBody => "try_body"
  | .catchClause => "catch"
  | .catchVar1 => "catch_var1"
  | .catchVar2 => "catch_var2"
  | .catchBody => "catch_body"
  | .expr => "expr"
  | .castedTo => "casted_to"
  | .rhsType => "rhs_type"
  | .inner => "inner"
  | .obj => "obj"
  | .field => "field"
  | .callee => "callee"
  | .mutate => "mutate"
  | .paramTypes => "param_types"
  | .pattern => "pattern"
  | .arms => "arms"
  | .excNo => "excNo"

/-- Every slot. -/
def all : List Field :=
  [.name, .annotations, .arguments, .receiver, .receiverType, .typeParameters, .parameters,
   .returnType, .body, .typeExpr, .default, .value, .modifiers, .underlyingType, .packPrefix,
   .backedType, .path, .lhs, .assignedVal, .redef, .left, .right, .operatorName, .argument,
   .condition, .consequence, .alternative, .count, .tryBody, .catchClause, .catchVar1,
   .catchVar2, .catchBody, .expr, .castedTo, .rhsType, .inner, .obj, .field, .callee, .mutate,
   .paramTypes, .pattern, .arms, .excNo]

/-- The slot with a given name. -/
def ofName? (s : String) : Option Field := all.find? (·.label == s)

end Field

end TolkAnalysis
