/-!
# Kinds of syntax nodes

Every node of a syntax tree has one of the kinds below. A kind has a name,
under which trees are written out, and belongs to at most a few classes:
declarations that have parameters and a body, spellings of types, and names
that may refer to a declaration.
-/

namespace TolkAnalysis

/-- What a syntax node is. -/
inductive NodeKind where
  | sourceFile
  | importDirective
  | annotationList
  | annotationEntry
  | functionDeclaration
  | methodDeclaration
  | getMethodDeclaration
  | methodReceiver
  | parameterList
  | parameterDeclaration
  | typeParameterList
  | typeParameter
  | asmBody
  | builtinSpecifier
  | globalVarDeclaration
  | constantDeclaration
  | typeAliasDeclaration
  | structDeclaration
  | structBody
  | structFieldDeclaration
  | fieldModifier
  | enumDeclaration
  | enumBody
  | enumMemberDeclaration
  | blockStatement
  | localVarsDeclaration
  | varDeclaration
  | tupleVarsDeclaration
  | tensorVarsDeclaration
  | expressionStatement
  | returnStatement
  | ifStatement
  | whileStatement
  | doWhileStatement
  | repeatStatement
  | tryCatchStatement
  | catchClause
  | throwStatement
  | assertStatement
  | breakStatement
  | continueStatement
  | emptyStatement
  | assignment
  | setAssignment
  | ternaryOperator
  | binaryOperator
  | unaryOperator
  | operator
  | castAsOperator
  | isTypeOperator
  | notNullOperator
  | lazyExpression
  | dotAccess
  | functionCall
  | argumentList
  | callArgument
  | genericInstantiation
  | instantiationTypeList
  | parenthesizedExpression
  | tensorExpression
  | typedTuple
  | objectLiteral
  | objectLiteralBody
  | instanceArgument
  | matchExpression
  | matchArm
  | matchElse
  | numberLiteral
  | stringLiteral
  | booleanLiteral
  | nullLiteral
  | underscore
  | identifier
  | numericIndex
  | mutate
  | redef
  | typeIdentifier
  | nullableType
  | unionType
  | tensorType
  | tupleType
  | parenthesizedType
  | instantiatedType
  | funCallableType
  | error
deriving DecidableEq, Hashable, Inhabited

namespace NodeKind

/-- The name of a kind in written trees. -/
def name : NodeKind → String
  | .sourceFile => "source_file"
  | .importDirective => "import_directive"
  | .annotationList => "annotation_list"
  | .annotationEntry => "annotation"
  | .functionDeclaration => "function_declaration"
  | .methodDeclaration => "method_declaration"
  | .getMethodDeclaration => "get_method_declaration"
  | .methodReceiver => "method_receiver"
  | .parameterList => "parameter_list"
  | .parameterDeclaration => "parameter_declaration"
  | .typeParameterList => "type_parameter_list"
  | .typeParameter => "type_parameter"
  | .asmBody => "asm_body"
  | .builtinSpecifier => "builtin_specifier"
  | .globalVarDeclaration => "global_var_declaration"
  | .constantDeclaration => "constant_declaration"
  | .typeAliasDeclaration => "type_alias_declaration"
  | .structDeclaration => "struct_declaration"
  | .structBody => "struct_body"
  | .structFieldDeclaration => "struct_field_declaration"
  | .fieldModifier => "field_modifier"
  | .enumDeclaration => "enum_declaration"
  | .enumBody => "enum_body"
  | .enumMemberDeclaration => "enum_member_declaration"
  | .blockStatement => "block_statement"
  | .localVarsDeclaration => "local_vars_declaration"
  | .varDeclaration => "var_declaration"
  | .tupleVarsDeclaration => "tuple_vars_declaration"
  | .tensorVarsDeclaration => "tensor_vars_declaration"
  | .expressionStatement => "expression_statement"
  | .returnStatement => "return_statement"
  | .ifStatement => "if_statement"
  | .whileStatement => "while_statement"
  | .doWhileStatement => "do_while_statement"
  | .repeatStatement => "repeat_statement"
  | .tryCatchStatement => "try_catch_statement"
  | .catchClause => "catch_clause"
  | .throwStatement => "throw_statement"
  | .assertStatement => "assert_statement"
  | .breakStatement => "break_statement"
  | .continueStatement => "continue_statement"
  | .emptyStatement => "empty_statement"
  | .assignment => "assignment"
  | .setAssignment => "set_assignment"
  | .ternaryOperator => "ternary_operator"
  | .binaryOperator => "binary_operator"
  | .unaryOperator => "unary_operator"
  | .operator => "operator"
  | .castAsOperator => "cast_as_operator"
  | .isTypeOperator => "is_type_operator"
  | .notNullOperator => "not_null_operator"
  | .lazyExpression => "lazy_expression"
  | .dotAccess => "dot_access"
  | .functionCall => "function_call"
  | .argumentList => "argument_list"
  | .callArgument => "call_argument"
  | .genericInstantiation => "generic_instantiation"
  | .instantiationTypeList => "instantiation_type_list"
  | .parenthesizedExpression => "parenthesized_expression"
  | .tensorExpression => "tensor_expression"
  | .typedTuple => "typed_tuple"
  | .objectLiteral => "object_literal"
  | .objectLiteralBody => "object_literal_body"
  | .instanceArgument => "instance_argument"
  | .matchExpression => "match_expression"
  | .matchArm => "match_arm"
  | .matchElse => "match_else"
  | .numberLiteral => "number_literal"
  | .stringLiteral => "string_literal"
  | .booleanLiteral => "boolean_literal"
  | .nullLiteral => "null_literal"
  | .underscore => "underscore"
  | .identifier => "identifier"
  | .numericIndex => "numeric_index"
  | .mutate => "mutate"
  | .redef => "redef"
  | .typeIdentifier => "type_identifier"
  | .nullableType => "nullable_type"
  | .unionType => "union_type"
  | .tensorType => "tensor_type"
  | .tupleType => "tuple_type"
  | .parenthesizedType => "parenthesized_type"
  | .instantiatedType => "instantiated_type"
  | .funCallableType => "fun_callable_type"
  | .error => "ERROR"

/-- Every kind, in the order of the grammar: files, declarations, statements,
expressions, types, and last the node that covers skipped text. -/
def all : List NodeKind :=
  [.sourceFile, .importDirective, .annotationList, .annotationEntry, .functionDeclaration,
   .methodDeclaration, .getMethodDeclaration, .methodReceiver, .parameterList,
   .parameterDeclaration, .typeParameterList, .typeParameter, .asmBody, .builtinSpecifier,
   .globalVarDeclaration, .constantDeclaration, .typeAliasDeclaration, .structDeclaration,
   .structBody, .structFieldDeclaration, .fieldModifier, .enumDeclaration, .enumBody,
   .enumMemberDeclaration, .blockStatement, .localVarsDeclaration, .varDeclaration,
   .tupleVarsDeclaration, .tensorVarsDeclaration, .expressionStatement, .returnStatement,
   .ifStatement, .whileStatement, .doWhileStatement, .repeatStatement, .tryCatchStatement,
   .catchClause, .throwStatement, .assertStatement, .breakStatement, .continueStatement,
   .emptyStatement, .assignment, .setAssignment, .ternaryOperator, .binaryOperator,
   .unaryOperator, .operator, .castAsOperator, .isTypeOperator, .notNullOperator,
   .lazyExpression, .dotAccess, .functionCall, .argumentList, .callArgument,
   .genericInstantiation, .instantiationTypeList, .parenthesizedExpression, .tensorExpression,
   .typedTuple, .objectLiteral, .objectLiteralBody, .instanceArgument, .matchExpression,
   .matchArm, .matchElse, .numberLiteral, .stringLiteral, .booleanLiteral, .nullLiteral,
   .underscore, .identifier, .numericIndex, .mutate, .redef, .typeIdentifier, .nullableType,
   .unionType, .tensorType, .tupleType, .parenthesizedType, .instantiatedType,
   .funCallableType, .error]

/-- The kind with a given name. -/
def ofName? (s : String) : Option NodeKind := all.find? (·.name == s)

/-- A function, a method or a get method. -/
def isFunctionLike : NodeKind → Bool
  | .functionDeclaration | .methodDeclaration | .getMethodDeclaration => true
  | _ => false

/-- The node spells a type and computes no value. -/
def isType : NodeKind → Bool
  | .typeIdentifier | .nullableType | .unionType | .tensorType | .tupleType
  | .parenthesizedType | .instantiatedType | .funCallableType => true
  | _ => false

/-- The node is a name that may refer to a declaration. -/
def isReferenceLike : NodeKind → Bool
  | .identifier | .typeIdentifier => true
  | _ => false

end NodeKind

end TolkAnalysis
