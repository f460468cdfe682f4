import TolkAnalysis.Inference.TypeExpr

/-!
# Types of expressions

Arithmetic gives integers and comparisons give truth values, whatever the
operands are. The type of a member is that of its declaration with the
arguments of the object's type in place. A call of a generic function has the
declared result with the type parameters replaced by what is learned from the
written type arguments, the object before the dot and the arguments of the call;
if some stay open, the call has no type.

An object literal without a written type has the type that the construct around
it expects.
-/

namespace TolkAnalysis

namespace Inference

/-- The type of a conditional expression. -/
def ternaryType (i : Inference) (n : Node) : Attempt Ty := do
  let consequence ← (i.inferChild n .consequence).answer?
  let alternative ← (i.inferChild n .alternative).answer?
  match consequence, alternative with
  | none, other => .ofOption other
  | some t, none => return t
  | some .null, some t => return Ty.nullable t
  | some t, some .null => return Ty.nullable t
  | some t, some _ => return t

/-- The type of a binary operation. -/
def binaryType (i : Inference) (n : Node) : Attempt Ty := do
  let operator := (← .ofOption (n.child? .operatorName)).text
  if ["&&", "||", "==", "!=", "<", ">", "<=", ">="].contains operator then return .bool
  else if ["+", "-", "*", "/", "%", "<<", ">>", "&", "|", "^"].contains operator then return .int
  else if operator == "??" then
    let left ← i.inferChild n .left
    let right ← i.inferChild n .right
    return Ty.join left.unwrapOption right
  else i.inferChild n .left

/-- The type of a prefix operation. -/
def unaryType (i : Inference) (n : Node) : Attempt Ty := do
  let operator := (← .ofOption (n.child? .operatorName)).text
  if operator == "!" then return .bool
  else if ["-", "+", "~"].contains operator then return .int
  else i.inferChild n .argument

/-- The index that a number after a dot stands for: decimal digits alone, of at
most 64 bits. -/
def elementIndex? (text : String) : Option Nat :=
  let cs := text.toList
  let value := cs.foldl (fun n c => 10 * n + (c.toNat - '0'.toNat)) 0
  if cs ≠ [] ∧ cs.all Char.isDigit ∧ value < UInt64.size then some value else none

/-- The bindings of the type parameters of a generic declaration to the
arguments that a type, possibly optional, applies it to. -/
def appliedArguments (t : Ty) : Substitution :=
  match t.unwrapOption with
  | .instantiation inner args =>
      match inner.anchor? with
      | some d => Substitution.ofList (d.typeParameterNames.zip args)
      | none => .empty
  | _ => .empty

/-- The type of a member access. -/
def memberType (i : Inference) (n : Node) : Attempt Ty := do
  let member ← .ofOption (n.child? .field)
  if member.kind == .numericIndex then
    let index ← .ofOption (elementIndex? member.text)
    let object ← i.inferChild n .obj
    .ofOption (object.elements?.bind (·[index]?))
  else
    let t ← i.declType (← i.resolve member)
    match ← (i.inferChild n .obj).answer? with
    | some object => return t.substitute (appliedArguments object)
    | none => return t

/-- The name of what is called and the list of its written type arguments. -/
def calleeParts? (callee : Node) : Option (Node × Option Node) :=
  match callee.kind with
  | .identifier => some (callee, none)
  | .dotAccess => (callee.child? .field).map (·, none)
  | .genericInstantiation =>
      match _h : callee.child? .expr with
      | some inner => (calleeParts? inner).map fun (name, _) => (name, callee.child? .arguments)
      | none => none
  | _ => none
termination_by callee.id
decreasing_by exact Node.id_lt_of_child? _h

/-- What stands before the dot of what is called. -/
def calleeObject? (callee : Node) : Option Node :=
  match callee.kind with
  | .dotAccess => callee.child? .obj
  | .genericInstantiation =>
      match _h : callee.child? .expr with
      | some inner => calleeObject? inner
      | none => none
  | _ => none
termination_by callee.id
decreasing_by exact Node.id_lt_of_child? _h

/-- The node is the name of a type. -/
def namesType (i : Inference) (n : Node) : Attempt Bool := do
  match n.kind with
  | .identifier | .typeIdentifier => return (← (i.resolve n).answer?).any (·.kind.isType)
  | .genericInstantiation => return true
  | _ => return false

/-- The call passes the object before the dot as `self`. -/
def passesSelf (i : Inference) (object : Option Node) : Attempt Bool := do
  match object with
  | some o => return !(← i.namesType o)
  | none => return false

/-- The type of what a function returns, written or found from its body. -/
def resultType (i : Inference) (d : Decl) : Attempt Ty := do
  match d.returnType? with
  | some written => i.infer written
  | none =>
      match ← i.declType d with
      | .function _ result => return result
      | _ => failure

/-- The type parameters of a function. -/
def typeParameterTypes (i : Inference) (d : Decl) : Attempt (List Ty) :=
  d.typeParameters.mapM i.inferOrUnknown

/-- What the object before the dot tells about the type parameters of a method. -/
def deduceReceiver (i : Inference) (σ : Substitution) (d : Decl) (object : Option Node) :
    Attempt Substitution := do
  match d.receiverType?, object with
  | some receiver, some o =>
      let declared ← (i.infer receiver).answer?
      let actual ← (i.infer o).answer?
      match declared, actual with
      | some p, some a => return σ.deduce p a
      | _, _ => return σ
  | _, _ => return σ

/-- The written type of a parameter. -/
def writtenParameterType (i : Inference) (param : Node) : Attempt (Option Ty) :=
  match param.child? .typeExpr with
  | some written => (i.infer written).answer?
  | none => return none

/-- What the arguments of a call tell about the type parameters of a function. -/
def deduceArguments (i : Inference) : Substitution → List (Node × Node) → Attempt Substitution
  | σ, [] => return σ
  | σ, (param, arg) :: rest => do
      let declared ← i.writtenParameterType param
      let actual ← (i.infer arg).answer?
      match declared, actual with
      | some p, some a => i.deduceArguments (σ.deduce p a) rest
      | _, _ => i.deduceArguments σ rest

/-- The bindings that the written type arguments of a call make. -/
def writtenArguments (i : Inference) (d : Decl) (list : Option Node) : Attempt Substitution := do
  match list with
  | some l =>
      let params ← i.typeParameterTypes d
      return Substitution.ofParams params (← i.inferChildren l)
  | none => return .empty

/-- The type is a type parameter. -/
def isTypeParam : Ty → Bool
  | .typeParam .. => true
  | _ => false

/-- The type of a call of a generic function, whose declared result is given. -/
def genericCallType (i : Inference) (n callee : Node) (target : Decl) (written : Option Node)
    (result : Ty) : Attempt Ty := do
  let object := calleeObject? callee
  if isTypeParam result && (target.name == "fromCell" || target.name == "fromSlice") then
    i.infer (← .ofOption object)
  else
    let σ ← i.writtenArguments target written
    let σ ← i.deduceReceiver σ target object
    let skipSelf ← i.passesSelf object
    let args := ((n.child? .arguments).map (·.childrenOfKind .callArgument)).getD []
    let σ ← i.deduceArguments σ ((target.parametersFor skipSelf).zip args)
    let result := result.substitute σ
    if result.hasGenerics then failure else return result

/-- The type of a call. -/
def callType (i : Inference) (n : Node) : Attempt Ty := do
  let callee ← .ofOption (n.child? .callee)
  let (name, written) ← .ofOption (calleeParts? callee)
  let target ← i.resolve name
  if target.kind.isFunctionLike then
    let result ← i.resultType target
    if result.hasGenerics then i.genericCallType n callee target written result
    else return result
  else
    match (← i.declType target).unwrapAlias with
    | .function _ result => return result
    | _ => failure

/-- The type of an expression with type arguments after it. -/
def genericInstantiationType (i : Inference) (n : Node) : Attempt Ty := do
  let expr ← .ofOption (n.child? .expr)
  let (name, _) ← .ofOption (calleeParts? expr)
  let target ← i.resolve name
  let args ← i.listedTypes (n.child? .arguments)
  if target.kind.isFunctionLike then
    let t ← i.infer expr
    return t.substitute (Substitution.ofParams (← i.typeParameterTypes target) args)
  else
    return instantiate target (← i.declType target) args

/-- The declared type of the parameter that an argument of a call is for. -/
def expectedArgument (i : Inference) (arg : Node) : Attempt Ty := do
  let list ← .ofOption arg.parent?
  let call ← .ofOption (list.parent?.filter (·.kind == .functionCall))
  let position ← .ofOption ((list.childrenOfKind .callArgument).findIdx? (· == arg))
  let callee ← .ofOption (call.child? .callee)
  let (name, _) ← .ofOption (calleeParts? callee)
  let target ← i.resolve name
  if target.kind.isFunctionLike then
    let skipSelf ← i.passesSelf (calleeObject? callee)
    let param ← .ofOption (target.parametersFor skipSelf)[position]?
    return (← i.infer (← .ofOption (param.child? .typeExpr))).unwrapAlias
  else failure

/-- The type that an entry of an object literal expects of its value. Of a
union it is the first struct. -/
def expectedEntry (i : Inference) (entry : Node) : Attempt Ty := do
  match (← i.inferChild entry .name).unwrapAlias with
  | .union variants =>
      .ofOption (variants.find? fun v =>
        match v.baseType with
        | .struct .. => true
        | _ => false)
  | t => return t

/-- The type of an object literal. -/
def objectLiteralType (i : Inference) (n : Node) : Attempt Ty := do
  match n.child? .typeExpr with
  | some written => i.infer written
  | none =>
    let parent ← .ofOption n.parent?
    match parent.kind with
    | .localVarsDeclaration =>
        let declared ← .ofOption ((parent.child? .lhs).filter (·.kind == .varDeclaration))
        i.inferChild declared .typeExpr
    | .callArgument => i.expectedArgument parent
    | .instanceArgument => i.expectedEntry parent
    | .returnStatement =>
        let function ← .ofOption (Decl.enclosingFunction? parent)
        i.infer (← .ofOption function.returnType?)
    | _ => failure

/-- The type of a match: the join of its arms other than blocks. -/
def matchType (i : Inference) (n : Node) : Attempt Ty := do
  let bodies := ((n.childrenIn .arms).filterMap (·.child? .body)).filter (·.kind != .blockStatement)
  .ofOption (Ty.joinList? (← i.inferSome bodies))

end Inference

end TolkAnalysis
