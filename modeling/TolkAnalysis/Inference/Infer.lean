import TolkAnalysis.Inference.Expression

/-!
# The type of a node

`Inference.nodeType` gives the rule for each kind of node. A declaration has
the type of the names that refer to it. Statements, lists and marks have no
type.
-/

namespace TolkAnalysis

namespace Inference

/-- The type of a node. -/
def nodeType (i : Inference) (n : Node) : Attempt Ty :=
  match n.kind with
  | .assignment | .setAssignment => i.inferChild n .right
  | .ternaryOperator => i.ternaryType n
  | .binaryOperator => i.binaryType n
  | .unaryOperator => i.unaryType n
  | .lazyExpression => i.inferChild n .argument
  | .parenthesizedExpression => i.inferChild n .inner
  | .castAsOperator => i.inferChild n .castedTo
  | .isTypeOperator => return .bool
  | .notNullOperator => do return (← i.inferChild n .inner).unwrapOption
  | .dotAccess => i.memberType n
  | .functionCall => i.callType n
  | .genericInstantiation => i.genericInstantiationType n
  | .objectLiteral => i.objectLiteralType n
  | .tensorExpression => do return .tensor (← i.inferChildren n)
  | .typedTuple => do return .tuple (← i.inferChildren n)
  | .matchExpression => i.matchType n
  | .callArgument => i.inferChild n .expr
  | .instanceArgument =>
      match n.child? .value with
      | some value => i.infer value
      | none => i.inferChild n .name
  | .numberLiteral => return .int
  | .stringLiteral => i.builtinType n "slice"
  | .booleanLiteral => return .bool
  | .nullLiteral => return .null
  | .identifier => do i.declType (← i.resolve n)
  | .typeIdentifier => i.namedType n
  | .nullableType => do return Ty.nullable (← i.inferChild n .inner)
  | .unionType => i.unionType n
  | .tensorType => do return .tensor (← i.inferChildren n)
  | .tupleType => do return .tuple (← i.inferChildren n)
  | .parenthesizedType => i.inferChild n .inner
  | .instantiatedType => i.instantiatedType n
  | .funCallableType => i.callableType n
  | .functionDeclaration | .methodDeclaration | .getMethodDeclaration | .parameterDeclaration
  | .typeParameter | .globalVarDeclaration | .constantDeclaration | .typeAliasDeclaration
  | .structDeclaration | .structFieldDeclaration | .enumDeclaration | .enumMemberDeclaration
  | .varDeclaration => do i.declType (← .ofOption (Decl.ofNode? n))
  | _ => failure

end Inference

end TolkAnalysis
