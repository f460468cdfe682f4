import Mathlib.Data.List.Basic
import TolkAnalysis.Tree.Field
import TolkAnalysis.Tree.Kind

/-!
# Shapes of syntax nodes

`NodeKind.parts kind` lists the parts that a node of a kind consists of: which slot the
children of a part sit in, which kinds they may have and how many there may be. `Fits parts
entries` says that children with the given slots and kinds make up a list of parts, each part
after the one before it. What fits two lists of parts one after the other fits them put
together, which is how a node is built from left to right.
-/

namespace TolkAnalysis

namespace NodeKind

/-- The node computes a value. -/
def isExpression : NodeKind → Bool
  | .assignment | .setAssignment | .ternaryOperator | .binaryOperator | .unaryOperator
  | .castAsOperator | .isTypeOperator | .notNullOperator | .lazyExpression | .dotAccess
  | .functionCall | .genericInstantiation | .parenthesizedExpression | .tensorExpression
  | .typedTuple | .objectLiteral | .matchExpression | .numberLiteral | .stringLiteral
  | .booleanLiteral | .nullLiteral | .underscore | .identifier => true
  | _ => false

/-- The node binds variables. -/
def isPattern : NodeKind → Bool
  | .varDeclaration | .tupleVarsDeclaration | .tensorVarsDeclaration => true
  | _ => false

/-- The node is a statement of a block. -/
def isStatement : NodeKind → Bool
  | .localVarsDeclaration | .blockStatement | .returnStatement | .ifStatement | .whileStatement
  | .doWhileStatement | .repeatStatement | .tryCatchStatement | .throwStatement
  | .assertStatement | .breakStatement | .continueStatement | .expressionStatement => true
  | _ => false

/-- The node is a declaration at the top of a file. -/
def isItem : NodeKind → Bool
  | .importDirective | .functionDeclaration | .methodDeclaration | .getMethodDeclaration
  | .structDeclaration | .enumDeclaration | .typeAliasDeclaration | .constantDeclaration
  | .globalVarDeclaration => true
  | _ => false

/-- The node names a variable, or leaves it without a name. -/
def isBinder : NodeKind → Bool
  | .identifier | .underscore => true
  | _ => false

/-- The node is the body of a function. -/
def isBody : NodeKind → Bool
  | .blockStatement | .asmBody | .builtinSpecifier => true
  | _ => false

end NodeKind

/-- The slot of a child with its kind. -/
abbrev Entry := Option Field × NodeKind

/-- How many children a part has. -/
inductive Multiplicity where
  | one
  | optional
  | many
deriving DecidableEq

/-- A number of children is among those allowed. -/
def Multiplicity.Allows : Multiplicity → Nat → Prop
  | .one, n => n = 1
  | .optional, n => n ≤ 1
  | .many, _ => True

/-- A part of a node: children of one slot and of some kinds. -/
structure Part where
  count : Multiplicity
  slot : Option Field
  kinds : NodeKind → Bool

namespace Part

/-- Children make up a part. -/
structure Fits (p : Part) (entries : List Entry) : Prop where
  allowed : ∀ e ∈ entries, e.1 = p.slot ∧ p.kinds e.2 = true
  count : p.count.Allows entries.length

/-- Exactly one child in a slot. -/
def one (slot : Field) (kinds : NodeKind → Bool) : Part := ⟨.one, some slot, kinds⟩

/-- At most one child in a slot. -/
def optional (slot : Field) (kinds : NodeKind → Bool) : Part := ⟨.optional, some slot, kinds⟩

/-- Any number of children without a slot. -/
def many (kinds : NodeKind → Bool) : Part := ⟨.many, none, kinds⟩

end Part

/-- Children make up a list of parts, one part after the other. -/
def Fits : List Part → List Entry → Prop
  | [], entries => entries = []
  | p :: parts, entries => ∃ front back, entries = front ++ back ∧ p.Fits front ∧ Fits parts back

namespace Fits

variable {parts parts' : List Part} {entries entries' : List Entry}

theorem singleton {p : Part} (h : p.Fits entries) : Fits [p] entries :=
  ⟨entries, [], by simp, h, rfl⟩

@[simp] theorem singleton_iff {p : Part} : Fits [p] entries ↔ p.Fits entries := by
  constructor
  · rintro ⟨front, back, rfl, hfront, rfl⟩
    simpa using hfront
  · exact singleton

/-- What fits two lists of parts fits them put together. -/
theorem append (h : Fits parts entries) (h' : Fits parts' entries') :
    Fits (parts ++ parts') (entries ++ entries') := by
  induction parts generalizing entries with
  | nil =>
    obtain rfl : entries = [] := h
    exact h'
  | cons p parts ih =>
    obtain ⟨front, back, rfl, hfront, hback⟩ := h
    exact ⟨front, back ++ entries', by simp, hfront, ih hback⟩

/-- What fits two lists of parts put together splits into what fits each. -/
theorem exists_of_append (h : Fits (parts ++ parts') entries) :
    ∃ front back, entries = front ++ back ∧ Fits parts front ∧ Fits parts' back := by
  induction parts generalizing entries with
  | nil => exact ⟨[], entries, rfl, rfl, h⟩
  | cons p parts ih =>
    obtain ⟨front, back, rfl, hfront, hback⟩ := h
    obtain ⟨mid, last, rfl, hmid, hlast⟩ := ih hback
    exact ⟨front ++ mid, last, by simp, ⟨front, mid, rfl, hfront, hmid⟩, hlast⟩

/-- Each child belongs to one of the parts. -/
theorem exists_part (h : Fits parts entries) {e : Entry} (he : e ∈ entries) :
    ∃ p ∈ parts, e.1 = p.slot ∧ p.kinds e.2 = true := by
  induction parts generalizing entries with
  | nil =>
    obtain rfl : entries = [] := h
    simp at he
  | cons p parts ih =>
    obtain ⟨front, back, rfl, hfront, hback⟩ := h
    rcases List.mem_append.1 he with hmem | hmem
    · exact ⟨p, by simp, hfront.allowed e hmem⟩
    · obtain ⟨q, hq, hkind⟩ := ih hback hmem
      exact ⟨q, by simp [hq], hkind⟩

/-- A slot that belongs to one part, which has at most one child, has at most one
child. -/
theorem length_filter_slot_le {slot : Option Field} (h : Fits parts entries)
    (hone : (parts.filter (·.slot == slot)).length ≤ 1)
    (hcount : ∀ p ∈ parts, p.slot = slot → p.count ≠ .many) :
    (entries.filter (·.1 == slot)).length ≤ 1 := by
  induction parts generalizing entries with
  | nil =>
    obtain rfl : entries = [] := h
    exact Nat.zero_le 1
  | cons p parts ih =>
    obtain ⟨front, back, rfl, hfront, hback⟩ := h
    rw [List.forall_mem_cons] at hcount
    rw [List.filter_append, List.length_append]
    by_cases hslot : p.slot = slot
    · have hnone : parts.filter (·.slot == slot) = [] := by
        rw [List.filter_cons_of_pos (by simp [hslot]), List.length_cons] at hone
        exact List.length_eq_zero_iff.mp (by omega)
      have hback' : back.filter (·.1 == slot) = [] := by
        refine List.filter_eq_nil_iff.mpr fun e he heq => ?_
        obtain ⟨q, hq, hqslot, -⟩ := hback.exists_part he
        have hmem : q ∈ parts.filter (·.slot == slot) :=
          List.mem_filter.mpr ⟨hq, by rwa [← hqslot]⟩
        rw [hnone] at hmem
        cases hmem
      have hfront' : front.length ≤ 1 := by
        have hallowed := hfront.count
        cases hc : p.count with
        | one => rw [hc] at hallowed; exact Nat.le_of_eq hallowed
        | optional => rw [hc] at hallowed; exact hallowed
        | many => exact absurd hc (hcount.1 hslot)
      have hle := List.length_filter_le (·.1 == slot) front
      rw [hback', List.length_nil]
      omega
    · have hfront' : front.filter (·.1 == slot) = [] := by
        refine List.filter_eq_nil_iff.mpr fun e he heq => hslot ?_
        rw [← (hfront.allowed e he).1]
        exact beq_iff_eq.mp heq
      rw [List.filter_cons_of_neg (by simp [hslot])] at hone
      have hle := ih hback hone hcount.2
      rw [hfront', List.length_nil]
      omega

/-- A child that a part must have is one that it may have. -/
theorem optional_of_one {slot : Option Field} {kinds : NodeKind → Bool}
    (h : Fits [⟨.one, slot, kinds⟩] entries) : Fits [⟨.optional, slot, kinds⟩] entries := by
  rw [singleton_iff] at h ⊢
  exact ⟨h.allowed, Nat.le_of_eq h.count⟩

/-- What a part must or may have is among any number of children. -/
theorem many_of {count : Multiplicity} {slot : Option Field} {kinds : NodeKind → Bool}
    (h : Fits [⟨count, slot, kinds⟩] entries) : Fits [⟨.many, slot, kinds⟩] entries := by
  rw [singleton_iff] at h ⊢
  exact ⟨h.allowed, trivial⟩

theorem optional_nil (slot : Option Field) (kinds : NodeKind → Bool) :
    Fits [⟨.optional, slot, kinds⟩] [] := singleton ⟨by simp, Nat.zero_le 1⟩

theorem many_nil (slot : Option Field) (kinds : NodeKind → Bool) :
    Fits [⟨.many, slot, kinds⟩] [] := singleton ⟨by simp, trivial⟩

/-- Children of one part, one after the other, are children of that part. -/
theorem many_of_append {slot : Option Field} {kinds : NodeKind → Bool}
    (h : Fits ([⟨.many, slot, kinds⟩] ++ [⟨.many, slot, kinds⟩]) entries) :
    Fits [⟨.many, slot, kinds⟩] entries := by
  obtain ⟨front, back, rfl, hfront, hback⟩ := h.exists_of_append
  rw [singleton_iff] at hfront hback ⊢
  refine ⟨fun e he => ?_, trivial⟩
  rcases List.mem_append.1 he with hmem | hmem
  · exact hfront.allowed e hmem
  · exact hback.allowed e hmem

/-- The kinds of a part may be widened. -/
theorem mono_kinds {count : Multiplicity} {slot : Option Field} {kinds kinds' : NodeKind → Bool}
    (h : Fits [⟨count, slot, kinds⟩] entries) (hkinds : ∀ k, kinds k = true → kinds' k = true) :
    Fits [⟨count, slot, kinds'⟩] entries := by
  rw [singleton_iff] at h ⊢
  exact ⟨fun e he => ⟨(h.allowed e he).1, hkinds _ (h.allowed e he).2⟩, h.count⟩

end Fits

namespace NodeKind

/-- The kind and no other. -/
def only (kind : NodeKind) : NodeKind → Bool := (· == kind)

/-- Either of two classes of kinds. -/
def either (p q : NodeKind → Bool) : NodeKind → Bool := fun kind => p kind || q kind

theorem either_left {p q : NodeKind → Bool} {kind : NodeKind} (h : p kind = true) :
    either p q kind = true := by simp [either, h]

theorem either_right {p q : NodeKind → Bool} {kind : NodeKind} (h : q kind = true) :
    either p q kind = true := by simp [either, h]

theorem only_iff {kind k : NodeKind} : only kind k = true ↔ k = kind := by simp [only]

/-- The parts that a node of a kind consists of. -/
def parts : NodeKind → List Part
  | .sourceFile => [.many (either isItem (only .error))]
  | .importDirective => [.one .path (only .stringLiteral)]
  | .annotationList => [.many (only .annotationEntry)]
  | .annotationEntry => [.one .name (only .identifier), .optional .arguments (only .argumentList)]
  | .functionDeclaration | .getMethodDeclaration =>
      [.optional .annotations (only .annotationList), .one .name (only .identifier),
       .optional .typeParameters (only .typeParameterList),
       .one .parameters (only .parameterList), .optional .returnType isType,
       .one .body isBody]
  | .methodDeclaration =>
      [.optional .annotations (only .annotationList), .one .receiver (only .methodReceiver),
       .one .name (only .identifier), .optional .typeParameters (only .typeParameterList),
       .one .parameters (only .parameterList), .optional .returnType isType,
       .one .body isBody]
  | .methodReceiver => [.one .receiverType isType]
  | .parameterList => [.many (only .parameterDeclaration)]
  | .parameterDeclaration =>
      [.optional .mutate (only .mutate), .one .name (only .identifier),
       .optional .typeExpr isType, .optional .default isExpression]
  | .typeParameterList => [.many (only .typeParameter)]
  | .typeParameter => [.one .name (only .identifier), .optional .default isType]
  | .asmBody => [.many (only .stringLiteral)]
  | .globalVarDeclaration =>
      [.optional .annotations (only .annotationList), .one .name (only .identifier),
       .one .typeExpr isType]
  | .constantDeclaration =>
      [.optional .annotations (only .annotationList), .one .name (only .identifier),
       .optional .typeExpr isType, .one .value isExpression]
  | .typeAliasDeclaration =>
      [.optional .annotations (only .annotationList), .one .name (only .identifier),
       .optional .typeParameters (only .typeParameterList),
       .one .underlyingType (either isType (only .builtinSpecifier))]
  | .structDeclaration =>
      [.optional .annotations (only .annotationList), .optional .packPrefix (only .numberLiteral),
       .one .name (only .identifier), .optional .typeParameters (only .typeParameterList),
       .one .body (only .structBody)]
  | .structBody => [.many (only .structFieldDeclaration)]
  | .structFieldDeclaration =>
      [⟨.many, some .modifiers, only .fieldModifier⟩, .one .name (only .identifier),
       .one .typeExpr isType, .optional .default isExpression]
  | .enumDeclaration =>
      [.optional .annotations (only .annotationList), .one .name (only .identifier),
       .optional .backedType isType, .one .body (only .enumBody)]
  | .enumBody => [.many (only .enumMemberDeclaration)]
  | .enumMemberDeclaration => [.one .name (only .identifier), .optional .value isExpression]
  | .blockStatement => [.many (either isStatement (only .error))]
  | .localVarsDeclaration => [.one .lhs isPattern, .optional .assignedVal isExpression]
  | .varDeclaration =>
      [.one .name isBinder, .optional .typeExpr isType, .optional .redef (only .redef)]
  | .tupleVarsDeclaration | .tensorVarsDeclaration => [.many isPattern]
  | .expressionStatement => [.one .expr isExpression]
  | .returnStatement => [.optional .body isExpression]
  | .ifStatement =>
      [.one .condition isExpression, .one .consequence (only .blockStatement),
       .optional .alternative (either (only .ifStatement) (only .blockStatement))]
  | .whileStatement => [.one .condition isExpression, .one .body (only .blockStatement)]
  | .doWhileStatement => [.one .body (only .blockStatement), .one .condition isExpression]
  | .repeatStatement => [.one .count isExpression, .one .body (only .blockStatement)]
  | .tryCatchStatement =>
      [.one .tryBody (only .blockStatement), .one .catchClause (only .catchClause)]
  | .catchClause =>
      [.optional .catchVar1 isBinder, .optional .catchVar2 isBinder,
       .one .catchBody (only .blockStatement)]
  | .throwStatement => [.one .excNo isExpression]
  | .assertStatement =>
      [.one .condition isExpression, .optional .excNo isExpression,
       .optional .excNo isExpression]
  | .assignment => [.one .left isExpression, .one .right isExpression]
  | .setAssignment | .binaryOperator =>
      [.one .left isExpression, .one .operatorName (only .operator), .one .right isExpression]
  | .ternaryOperator =>
      [.one .condition isExpression, .one .consequence isExpression,
       .one .alternative isExpression]
  | .unaryOperator => [.one .operatorName (only .operator), .one .argument isExpression]
  | .castAsOperator => [.one .expr isExpression, .one .castedTo isType]
  | .isTypeOperator =>
      [.one .expr isExpression, .one .operatorName (only .operator), .one .rhsType isType]
  | .notNullOperator => [.one .inner isExpression]
  | .lazyExpression => [.one .argument isExpression]
  | .dotAccess =>
      [.one .obj isExpression, .one .field (either (only .identifier) (only .numericIndex))]
  | .functionCall => [.one .callee isExpression, .one .arguments (only .argumentList)]
  | .argumentList => [.many (only .callArgument)]
  | .callArgument => [.optional .mutate (only .mutate), .one .expr isExpression]
  | .genericInstantiation =>
      [.one .expr isExpression, .one .arguments (only .instantiationTypeList)]
  | .instantiationTypeList => [.many isType]
  | .parenthesizedExpression => [.one .inner isExpression]
  | .tensorExpression | .typedTuple => [.many isExpression]
  | .objectLiteral => [.optional .typeExpr isType, .one .arguments (only .objectLiteralBody)]
  | .objectLiteralBody => [.many (only .instanceArgument)]
  | .instanceArgument => [.one .name (only .identifier), .optional .value isExpression]
  | .matchExpression =>
      [.one .expr (either isExpression (only .localVarsDeclaration)),
       ⟨.many, some .arms, only .matchArm⟩]
  | .matchArm =>
      [.one .pattern (either (only .matchElse) (either isType isExpression)),
       .one .body (either (only .blockStatement) isExpression)]
  | .nullableType | .parenthesizedType => [.one .inner isType]
  | .unionType | .tensorType | .tupleType => [.many isType]
  | .instantiatedType =>
      [.one .name (only .typeIdentifier), .one .arguments (only .instantiationTypeList)]
  | .funCallableType => [.one .paramTypes (only .tensorType), .one .returnType isType]
  | _ => []

end NodeKind

end TolkAnalysis
