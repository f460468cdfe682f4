import TolkAnalysis.Grammar.Parse

/-!
# What parsers are composed of

A parser is `Composed` if it is put together from a few steps: looking at the state, reading the
next token, also as a node, failing for what comes next, pushing a node, trying a parser, and
covering what could not be read where another parser began. Only the last one pushes a node of the
kind `error`, and a node of a kind that `NodeKind.isToken` lists is one token.

The parsers of the grammar are composed (`composed_fileItems`). So what each of the steps does to a
state, and what follows for two parsers one after the other, is done by reading a file.
-/

namespace TolkAnalysis

namespace NodeKind

/-- A node of the kind is one token. -/
def isToken : NodeKind → Bool
  | .identifier | .typeIdentifier | .numericIndex | .underscore | .numberLiteral | .stringLiteral
  | .booleanLiteral | .nullLiteral | .builtinSpecifier | .fieldModifier | .mutate | .redef
  | .matchElse => true
  | _ => false

/-- A node of the kind is pushed when what it covers has been read. -/
def isPushed (kind : NodeKind) : Bool := !(kind.isToken || kind == .error)

theorem ne_error_of_isPushed {kind : NodeKind} (h : kind.isPushed = true) : kind ≠ .error := by
  rintro rfl
  cases h

theorem isToken_of_isPushed {kind : NodeKind} (h : kind.isPushed = true) :
    kind.isToken = false := by
  cases hkind : kind.isToken with
  | false => rfl
  | true =>
    rw [isPushed, hkind] at h
    cases h

end NodeKind

namespace Parser

variable {α β : Type}

/-- A parser is put together from single steps. -/
inductive Composed : {α : Type} → Parser α → Prop
  | pure {α : Type} (a : α) : Composed (Pure.pure a : Parser α)
  | bind {α β : Type} {p : Parser α} {f : α → Parser β} (hp : Composed p)
      (hf : ∀ a, Composed (f a)) : Composed (p >>= f)
  | get : Composed (MonadState.get : Parser ParserState)
  | advance : Composed (modify (·.advance) : Parser PUnit)
  | fail {α : Type} (expected : Expected) : Composed (Parser.fail expected : Parser α)
  | leaf {kind : NodeKind} (hkind : kind ≠ .error) : Composed (Parser.leaf kind)
  | push {kind : NodeKind} (hkind : kind.isPushed = true) (span : Span) (children : List Child) :
      Composed (Parser.push kind span children)
  | attempt {α : Type} {p : Parser α} (hp : Composed p) (accept : Cursor → Bool) :
      Composed (Parser.attempt p accept)
  /-- Where a parser fails, what could not be read is covered. -/
  | recovered {p : Parser Nat} {f : Nat → Parser Nat} (bound : Nat) (stop : TokenKind → Bool)
      (hp : Composed p) (hf : ∀ a, Composed (f a)) :
      Composed (MonadState.get >>= fun s => tryCatch p fun error =>
        recover bound error s.checkpoint stop >>= f)

namespace Composed

variable {p q : Parser α} {f : α → Parser β}

theorem map {g : α → β} (hp : Composed p) : Composed (g <$> p) := by
  rw [map_eq_pure_bind]
  exact hp.bind fun a => .pure (g a)

theorem ite {c : Prop} [Decidable c] (hp : Composed p) (hq : Composed q) :
    Composed (if c then p else q) := by
  split
  · exact hp
  · exact hq

theorem cursor {f : Cursor → Parser β} (hf : ∀ c, Composed (f c)) :
    Composed (Parser.cursor >>= f) := .bind (.bind .get fun s => .pure s.toCursor) hf

theorem check {kind : TokenKind} (hp : Composed p) (hq : Composed q) :
    Composed (Parser.check kind >>= fun b => if b = true then p else q) :=
  .bind (.cursor fun _ => .pure _) fun _ => hp.ite hq

theorem checkWord {word : String} (hp : Composed p) (hq : Composed q) :
    Composed (Parser.checkWord word >>= fun b => if b = true then p else q) :=
  .bind (.cursor fun _ => .pure _) fun _ => hp.ite hq

theorem next {f : Token → Parser β} (hf : ∀ t, Composed (f t)) : Composed (Parser.next >>= f) :=
  .bind (.cursor fun _ => .bind .advance fun _ => .pure _) hf

theorem eat {f : Bool → Parser β} (kind : TokenKind) (hf : ∀ b, Composed (f b)) :
    Composed (Parser.eat kind >>= f) :=
  .bind (.check (.bind .advance fun _ => .pure _) (.pure _)) hf

theorem eatThen {kind : TokenKind} (hp : Composed p) (hq : Composed q) :
    Composed (Parser.eat kind >>= fun b => if b = true then p else q) :=
  .eat kind fun _ => hp.ite hq

theorem expect {f : Span → Parser β} (kind : TokenKind) (hf : ∀ span, Composed (f span)) :
    Composed (Parser.expect kind >>= f) :=
  .bind (.check (.map (bind_pure Parser.next ▸ .next fun t => .pure t)) (.fail _)) hf

variable {kind : NodeKind}

theorem finish (hkind : kind.isPushed = true) (start : Nat) (children : List Child) :
    Composed (Parser.finish kind start children) := .cursor fun _ => .push hkind _ _

theorem expectName (hkind : kind ≠ .error) : Composed (Parser.expectName kind) :=
  .check (.leaf hkind) (.fail _)

theorem skip (count : Nat) (last : Span) : Composed (Parser.skip count last) := by
  induction count generalizing last with
  | zero => exact .pure _
  | succ count ih => exact .next fun t => ih t.span

theorem operator (count : Nat) : Composed (Parser.operator count) :=
  .cursor fun _ => .bind (.skip _ _) fun _ => .push (by decide) _ _

theorem iterate {step : α → Parser (Option α)} (hstep : ∀ a, Composed (step a)) (bound : Nat)
    (a : α) : Composed (Parser.iterate step bound a) := by
  induction bound generalizing a with
  | zero => exact .pure a
  | succ bound ih =>
    refine (hstep a).bind fun r => ?_
    cases r with
    | none => exact .pure a
    | some a' => exact ih a'

theorem collect {item : Parser (Option α)} (hitem : Composed item) (bound : Nat) :
    Composed (Parser.collect item bound) := by
  induction bound with
  | zero => exact .pure []
  | succ bound ih =>
    refine hitem.bind fun r => ?_
    cases r with
    | none => exact .pure []
    | some a => exact ih.bind fun as => .pure (a :: as)

theorem commaList {close : TokenKind} {item : Parser α} (hitem : Composed item) (bound : Nat) :
    Composed (Parser.commaList close item bound) := by
  induction bound with
  | zero => exact .pure _
  | succ bound ih =>
    refine .check (.pure _) (hitem.bind fun a => .eatThen (.check (.pure _) ?_) (.pure _))
    exact ih.bind fun r => .pure (a :: r.1, r.2)

theorem whenAt {here : Cursor → Bool} (hp : Composed p) : Composed (Parser.whenAt here p) :=
  .cursor fun _ => .ite (hp.bind fun _ => .pure _) (.pure _)

theorem mark? {slot : Field} {here : Cursor → Bool} (hkind : kind ≠ .error) :
    Composed (Parser.mark? slot kind here) :=
  .cursor fun _ => .ite ((Composed.leaf hkind).bind fun _ => .pure _) (.pure _)

theorem after? {close : TokenKind} {slot : Field} {child : Parser Nat} (hchild : Composed child) :
    Composed (Parser.after? close slot child) :=
  .eatThen (hchild.bind fun _ => .pure _) (.pure _)

theorem skipSeparators (bound : Nat) : Composed (Parser.skipSeparators bound) := by
  induction bound with
  | zero => exact .pure _
  | succ bound ih => exact .eatThen ih (.eatThen ih (.pure _))

end Composed

end Parser

namespace Grammar

open TolkAnalysis.Parser

variable {bound : Nat} {parse : Nonterminal → Parser Nat} {start : Nat}

section

variable (h : ∀ n, Composed (parse n))

include h

/-! ### Types -/

theorem composed_typeArguments : Composed (typeArguments bound parse) :=
  .cursor fun _ => .expect .lt fun _ => .bind (.commaList (h .type).map bound) fun _ =>
    .expect .gt fun _ => .finish (by decide) _ _

theorem composed_bracketedType (close : Span) (elements : List Child) (trailing : Bool) :
    Composed (bracketedType parse start close elements trailing) := by
  refine .eatThen (.bind (.push (by decide) _ _) fun _ => ?_) ?_
  · exact (h .nullableType).bind fun _ => .finish (by decide) _ _
  · split <;> exact .finish (by decide) _ _

theorem composed_primaryType : Composed (primaryType bound parse) := by
  refine .cursor fun c => ?_
  dsimp only
  split
  · refine .bind (.leaf (by decide)) fun _ => .check ?_ (.pure _)
    exact (composed_typeArguments h).bind fun _ => .finish (by decide) _ _
  · exact .leaf (by decide)
  · refine .next fun _ => .bind (.commaList (h .type).map bound) fun _ => ?_
    exact .expect .rParen fun _ => composed_bracketedType h _ _ _
  · refine .next fun _ => .bind (.commaList (h .type).map bound) fun _ => ?_
    exact .expect .rBracket fun _ => .finish (by decide) _ _
  · exact .fail _

theorem composed_nullableType : Composed (nullableType bound parse) :=
  .cursor fun _ => (composed_primaryType h).bind fun _ =>
    .iterate (fun _ => .eatThen (.map (.finish (by decide) _ _)) (.pure _)) bound _

theorem composed_type : Composed (type bound parse) := by
  refine .cursor fun _ => (composed_nullableType h).bind fun _ => .check (.bind ?_ fun _ => ?_)
    (.pure _)
  · exact .collect (.eatThen (composed_nullableType h).map (.pure _)) bound
  · exact .finish (by decide) _ _

/-! ### Expressions -/

theorem composed_callArgument : Composed (callArgument parse) :=
  .cursor fun _ => .bind (.mark? (by decide)) fun _ => (h .expression).bind fun _ =>
    .map (.finish (by decide) _ _)

theorem composed_argumentList : Composed (argumentList bound parse) :=
  .cursor fun _ => .expect .lParen fun _ => .bind (.commaList (composed_callArgument h) bound)
    fun _ => .expect .rParen fun _ => .finish (by decide) _ _

theorem composed_instanceArgument : Composed (instanceArgument parse) :=
  .cursor fun _ => .bind (.expectName (by decide)) fun _ => .bind (.after? (h .expression))
    fun _ => .map (.finish (by decide) _ _)

theorem composed_objectLiteral (type : Option Nat) :
    Composed (objectLiteral bound parse start type) := by
  refine .bind (.cursor fun _ => .expect .lBrace fun _ => ?_) fun _ => .finish (by decide) _ _
  refine .bind (.commaList (composed_instanceArgument h) bound) fun _ => ?_
  exact .expect .rBrace fun _ => .finish (by decide) _ _

theorem composed_nameOrObjectLiteral : Composed (nameOrObjectLiteral bound parse) := by
  refine .cursor fun c => ?_
  split
  · exact .bind (.leaf (by decide)) fun _ => composed_objectLiteral h _
  · refine .bind (.attempt (composed_type h) _) fun r => ?_
    cases r with
    | none => exact .leaf (by decide)
    | some type => exact composed_objectLiteral h _
  · exact .leaf (by decide)

theorem composed_armPattern : Composed (armPattern bound parse) := by
  refine .check (.leaf (by decide)) (.bind (.attempt (composed_type h) _) fun r => ?_)
  cases r with
  | none => exact h .expression
  | some type => exact .pure type

theorem composed_matchArm : Composed (matchArm bound parse) :=
  .cursor fun _ => (composed_armPattern h).bind fun _ => .expect .fatArrow fun _ =>
    .bind (.check (h .block) (h .expression)) fun _ => .bind (.finish (by decide) _ _) fun _ =>
      (Composed.skipSeparators bound).bind fun _ => .pure _

theorem composed_matchExpression : Composed (matchExpression bound parse) := by
  refine .cursor fun _ => .expect .kwMatch fun _ => .expect .lParen fun _ => .bind ?_ fun _ => ?_
  · exact .cursor fun _ => .ite (h .localVariables) (h .expression)
  · refine .expect .rParen fun _ => .expect .lBrace fun _ => ?_
    refine .bind (.collect (.whenAt (composed_matchArm h)) bound) fun _ => ?_
    exact .expect .rBrace fun _ => .finish (by decide) _ _

theorem composed_primary : Composed (primary bound parse) := by
  refine .cursor fun c => ?_
  dsimp only
  split
  · exact .leaf (by decide)
  · exact .leaf (by decide)
  · exact .leaf (by decide)
  · exact .leaf (by decide)
  · exact .leaf (by decide)
  · exact .leaf (by decide)
  · exact composed_nameOrObjectLiteral h
  · exact composed_objectLiteral h _
  · refine .next fun _ => .bind (.commaList (h .expression).map bound) fun _ => ?_
    refine .expect .rParen fun _ => ?_
    split <;> exact .finish (by decide) _ _
  · refine .next fun _ => .bind (.commaList (h .expression).map bound) fun _ => ?_
    exact .expect .rBracket fun _ => .finish (by decide) _ _
  · exact composed_matchExpression h
  · exact .fail _

omit h in
theorem composed_memberName : Composed memberName := by
  refine .cursor fun c => ?_
  split
  · exact .leaf (by decide)
  · exact .leaf (by decide)
  · exact .fail _

theorem composed_postfixStep (expr : Nat) : Composed (postfixStep bound parse start expr) := by
  refine .cursor fun c => ?_
  split
  · exact (composed_argumentList h).bind fun _ => .map (.finish (by decide) _ _)
  · exact .next fun _ => composed_memberName.bind fun _ => .map (.finish (by decide) _ _)
  · exact .ite (.pure _) (.next fun _ => .map (.finish (by decide) _ _))
  · refine .bind (.attempt (composed_typeArguments h) _) fun r => ?_
    cases r with
    | none => exact .pure _
    | some args => exact .map (.finish (by decide) _ _)
  · exact .pure _

theorem composed_castStep (expr : Nat) : Composed (castStep bound parse start expr) := by
  refine .eatThen ?_ (.cursor fun c => .ite (.bind (.operator _) fun _ => ?_) (.pure _))
  · exact (composed_type h).bind fun _ => .map (.finish (by decide) _ _)
  · exact (composed_type h).bind fun _ => .map (.finish (by decide) _ _)

theorem composed_cast : Composed (cast bound parse) := by
  refine .cursor fun _ => .bind (.cursor fun _ => ?_) fun _ =>
    .iterate (composed_castStep h) bound _
  exact (composed_primary h).bind fun _ => .iterate (composed_postfixStep h) bound _

theorem composed_unary : Composed (unary bound parse) := by
  refine .cursor fun c => ?_
  split
  iterate 4
    exact .bind (.operator 1) fun _ => (h .unary).bind fun _ => .finish (by decide) _ _
  · exact .next fun _ => (h .unary).bind fun _ => .finish (by decide) _ _
  · exact composed_cast h

theorem composed_binary (level : Nat) : Composed (binary bound parse level) := by
  refine .cursor fun _ => (composed_unary h).bind fun _ => .iterate (fun _ => ?_) bound _
  refine .cursor fun c => ?_
  split
  · refine .ite (.pure _) (.bind (.operator _) fun _ => ?_)
    exact (h (.binary _)).bind fun _ => .map (.finish (by decide) _ _)
  · exact .pure _

theorem composed_nullish : Composed (nullish bound parse) := by
  refine .cursor fun _ => (composed_binary h 1).bind fun _ => .iterate (fun _ => ?_) bound _
  refine .check (.bind (.operator 1) fun _ => ?_) (.pure _)
  exact (composed_binary h 1).bind fun _ => .map (.finish (by decide) _ _)

theorem composed_ternary : Composed (ternary bound parse) := by
  refine .cursor fun _ => (composed_nullish h).bind fun _ => .eatThen ?_ (.pure _)
  exact (h .expression).bind fun _ => .expect .colon fun _ => (h .expression).bind fun _ =>
    .finish (by decide) _ _

theorem composed_expression : Composed (expression bound parse) := by
  refine .cursor fun _ => (composed_ternary h).bind fun _ => .eatThen ?_ (.cursor fun c => ?_)
  · exact (h .expression).bind fun _ => .finish (by decide) _ _
  · split
    · exact .bind (.operator _) fun _ => (h .expression).bind fun _ => .finish (by decide) _ _
    · exact .pure _

/-! ### Statements -/

theorem composed_variableName {kind : NodeKind} (hkind : kind ≠ .error) :
    Composed (variableName bound parse kind) :=
  .cursor fun _ => .bind (.leaf hkind) fun _ => .bind (.after? (composed_type h)) fun _ =>
    .bind (.mark? (by decide)) fun _ => .finish (by decide) _ _

theorem composed_patternList {kind : NodeKind} (hkind : kind.isPushed = true) (close : TokenKind) :
    Composed (patternList bound parse kind close) :=
  .cursor fun _ => .next fun _ => .bind (.commaList (h .variablePattern).map bound) fun _ =>
    .expect close fun _ => .finish hkind _ _

theorem composed_variablePattern : Composed (variablePattern bound parse) := by
  refine .cursor fun c => ?_
  split
  · exact composed_patternList h (by decide) _
  · exact composed_patternList h (by decide) _
  · exact composed_variableName h (by decide)
  · exact composed_variableName h (by decide)
  · exact .fail _

theorem composed_localVariables : Composed (localVariables bound parse) := by
  refine .cursor fun _ => .bind ?_ fun _ => (composed_variablePattern h).bind fun _ => ?_
  · exact .eatThen (.pure _) (.expect .kwVar fun _ => .pure _)
  · exact .bind (.after? (composed_expression h)) fun _ => .finish (by decide) _ _

theorem composed_statementOrSkipped : Composed (statementOrSkipped bound parse) :=
  .recovered bound _ (h .statement) fun _ => .eat .semi fun _ => .pure _

theorem composed_block : Composed (block bound parse) := by
  refine .cursor fun _ => .expect .lBrace fun _ => .bind (.collect (.whenAt ?_) bound) fun _ => ?_
  · exact .eatThen (.pure _) ((composed_statementOrSkipped h).bind fun _ => .pure _)
  · exact .expect .rBrace fun _ => .finish (by decide) _ _

theorem composed_condition : Composed (condition bound parse) :=
  .expect .lParen fun _ => (composed_expression h).bind fun _ => .expect .rParen fun _ => .pure _

theorem composed_ifStatement : Composed (ifStatement bound parse) :=
  .cursor fun _ => .expect .kwIf fun _ => (composed_condition h).bind fun _ =>
    (composed_block h).bind fun _ => .bind (.after? (.check (h .ifStatement) (composed_block h)))
      fun _ => .finish (by decide) _ _

omit h in
theorem composed_catchVariables : Composed catchVariables := by
  have hvariable : Composed catchVariable := .check (.leaf (by decide)) (.expectName (by decide))
  refine .eatThen (.eatThen (.pure _) (hvariable.bind fun _ => ?_)) (.pure _)
  exact .bind (.after? hvariable) fun _ => .expect .rParen fun _ => .pure _

theorem composed_tryStatement : Composed (tryStatement bound parse) := by
  refine .cursor fun _ => .expect .kwTry fun _ => (composed_block h).bind fun _ => .bind ?_ fun _ =>
    .finish (by decide) _ _
  exact .cursor fun _ => .expect .kwCatch fun _ => composed_catchVariables.bind fun _ =>
    (composed_block h).bind fun _ => .finish (by decide) _ _

theorem composed_assertion : Composed (assertion bound parse) :=
  .cursor fun _ => .expect .kwAssert fun _ => .expect .lParen fun _ =>
    (composed_expression h).bind fun _ => .bind (.after? (composed_expression h)) fun _ =>
      .expect .rParen fun _ => .bind (.after? (composed_expression h)) fun _ =>
        .expect .semi fun _ => .finish (by decide) _ _

theorem composed_returnStatement : Composed (returnStatement bound parse) := by
  refine .cursor fun _ => .next fun _ => .bind (.check (.pure _) ?_) fun _ => ?_
  · exact (composed_expression h).bind fun _ => .pure _
  · exact .expect .semi fun _ => .finish (by decide) _ _

theorem composed_whileStatement : Composed (whileStatement bound parse) :=
  .cursor fun _ => .next fun _ => (composed_condition h).bind fun _ => (composed_block h).bind
    fun _ => .finish (by decide) _ _

theorem composed_doWhileStatement : Composed (doWhileStatement bound parse) :=
  .cursor fun _ => .next fun _ => (composed_block h).bind fun _ => .expect .kwWhile fun _ =>
    (composed_condition h).bind fun _ => .expect .semi fun _ => .finish (by decide) _ _

theorem composed_repeatStatement : Composed (repeatStatement bound parse) :=
  .cursor fun _ => .next fun _ => (composed_condition h).bind fun _ => (composed_block h).bind
    fun _ => .finish (by decide) _ _

theorem composed_throwStatement : Composed (throwStatement bound parse) :=
  .cursor fun _ => .next fun _ => (composed_expression h).bind fun _ => .expect .semi fun _ =>
    .finish (by decide) _ _

omit h in
theorem composed_wordStatement {kind : NodeKind} (hkind : kind.isPushed = true) :
    Composed (wordStatement kind) :=
  .cursor fun _ => .next fun _ => .expect .semi fun _ => .finish hkind _ _

theorem composed_expressionStatement : Composed (expressionStatement bound parse) := by
  refine .cursor fun _ => (composed_expression h).bind fun _ => .bind (.bind .get fun s => ?_)
    fun _ => .finish (by decide) _ _
  exact .ite (.eat .semi fun _ => .pure _) (.expect .semi fun _ => .pure _)

theorem composed_statement : Composed (statement bound parse) := by
  refine .cursor fun c => ?_
  split
  iterate 2 exact (composed_localVariables h).bind fun _ => .expect .semi fun _ => .pure _
  · exact composed_block h
  · exact composed_returnStatement h
  · exact composed_ifStatement h
  · exact composed_whileStatement h
  · exact composed_doWhileStatement h
  · exact composed_repeatStatement h
  · exact composed_tryStatement h
  · exact composed_throwStatement h
  · exact composed_assertion h
  · exact composed_wordStatement (by decide)
  · exact composed_wordStatement (by decide)
  · exact composed_expressionStatement h

theorem composed_production (n : Nonterminal) : Composed (production bound parse n) := by
  cases n with
  | type => exact composed_type h
  | nullableType => exact composed_nullableType h
  | expression => exact composed_expression h
  | binary level => exact composed_binary h level
  | unary => exact composed_unary h
  | variablePattern => exact composed_variablePattern h
  | localVariables => exact composed_localVariables h
  | block => exact composed_block h
  | ifStatement => exact composed_ifStatement h
  | statement => exact composed_statement h

/-! ### Declarations -/

theorem composed_annotations? : Composed (annotations? bound parse) := by
  refine .cursor fun c => .ite (.bind (.collect (.whenAt ?_) bound) fun _ => ?_) (.pure _)
  · refine .cursor fun _ => .next fun _ => .bind (.expectName (by decide)) fun _ => .bind ?_
      fun _ => .map (.finish (by decide) _ _)
    exact .check ((composed_argumentList h).bind fun _ => .pure _) (.pure _)
  · exact .map (.finish (by decide) _ _)

omit h in
theorem composed_importDirective : Composed (importDirective start) := by
  refine .expect .kwImport fun _ => .bind (.check (.leaf (by decide)) (.fail _)) fun _ => ?_
  exact .eat .semi fun _ => .finish (by decide) _ _

theorem composed_typeParameters? : Composed (typeParameters? bound parse) := by
  refine .cursor fun c => .ite (.expect .lt fun _ => .bind (.commaList ?_ bound) fun _ => ?_)
    (.pure _)
  · exact .cursor fun _ => .bind (.expectName (by decide)) fun _ =>
      .bind (.after? (composed_type h)) fun _ => .map (.finish (by decide) _ _)
  · exact .expect .gt fun _ => .bind (.finish (by decide) _ _) fun _ => .pure _

theorem composed_parameterList : Composed (parameterList bound parse) := by
  refine .cursor fun _ => .expect .lParen fun _ => .bind (.commaList ?_ bound) fun _ => ?_
  · exact .cursor fun _ => .bind (.mark? (by decide)) fun _ => .bind (.expectName (by decide))
      fun _ => .bind (.after? (composed_type h)) fun _ => .bind (.after? (composed_expression h))
        fun _ => .map (.finish (by decide) _ _)
  · exact .expect .rParen fun _ => .finish (by decide) _ _

theorem composed_receiver? : Composed (receiver? bound parse) := by
  refine .cursor fun _ => .bind (.attempt (composed_type h) _) fun r => ?_
  cases r with
  | none => exact .pure _
  | some type => exact .cursor fun _ => .next fun _ => .map (.push (by decide) _ _)

theorem composed_functionBody : Composed (functionBody bound parse) := by
  refine .check (composed_block h) (.checkWord ?_ (.checkWord ?_ (.fail _)))
  · refine .cursor fun _ => .next fun _ => .bind (.collect (.whenAt (.map ?_)) bound) fun _ => ?_
    · exact .leaf (by decide)
    · exact .bind (.finish (by decide) _ _) fun _ => .eat .semi fun _ => .pure _
  · exact .bind (.leaf (by decide)) fun _ => .eat .semi fun _ => .pure _

theorem composed_function (annotations : Option Nat) (isGetMethod : Bool) :
    Composed (function bound parse start annotations isGetMethod) := by
  refine .expect .kwFun fun _ => .bind (.ite (.pure _) (composed_receiver? h)) fun receiver => ?_
  have hkind : (functionKind isGetMethod receiver).isPushed = true := by
    cases isGetMethod <;> cases receiver <;> rfl
  exact .bind (.expectName (by decide)) fun _ => (composed_typeParameters? h).bind fun _ =>
    (composed_parameterList h).bind fun _ => .bind (.after? (composed_type h)) fun _ =>
      (composed_functionBody h).bind fun _ => .finish hkind _ _

omit h in
theorem composed_members {kind : NodeKind} (hkind : kind.isPushed = true) {member : Parser Child}
    (hmember : Composed member) : Composed (members bound kind member) := by
  refine .cursor fun _ => .expect .lBrace fun _ => .bind (.collect (.whenAt ?_) bound) fun _ => ?_
  · exact hmember.bind fun _ => (Composed.skipSeparators bound).bind fun _ => .pure _
  · exact .expect .rBrace fun _ => .finish hkind _ _

theorem composed_structField : Composed (structField bound parse) := by
  refine .cursor fun _ => .bind (.collect (.whenAt (.map (.leaf (by decide)))) bound) fun _ => ?_
  exact .bind (.expectName (by decide)) fun _ => .expect .colon fun _ => (composed_type h).bind
    fun _ => .bind (.after? (composed_expression h)) fun _ => .map (.finish (by decide) _ _)

theorem composed_struct (annotations : Option Nat) :
    Composed (struct bound parse start annotations) := by
  refine .expect .kwStruct fun _ => .bind (.eatThen (.bind ?_ fun _ => ?_) (.pure _)) fun _ => ?_
  · exact .check (.leaf (by decide)) (.fail _)
  · exact .expect .rParen fun _ => .pure _
  · exact .bind (.expectName (by decide)) fun _ => (composed_typeParameters? h).bind fun _ =>
      (composed_members (by decide) (composed_structField h)).bind fun _ => .finish (by decide) _ _

theorem composed_enumMember : Composed (enumMember bound parse) :=
  .cursor fun _ => .bind (.expectName (by decide)) fun _ =>
    .bind (.after? (composed_expression h)) fun _ => .map (.finish (by decide) _ _)

theorem composed_enum (annotations : Option Nat) :
    Composed (enum bound parse start annotations) :=
  .expect .kwEnum fun _ => .bind (.expectName (by decide)) fun _ =>
    .bind (.after? (composed_type h)) fun _ =>
      (composed_members (by decide) (composed_enumMember h)).bind fun _ => .finish (by decide) _ _

theorem composed_typeAlias (annotations : Option Nat) :
    Composed (typeAlias bound parse start annotations) := by
  refine .expect .kwType fun _ => .bind (.expectName (by decide)) fun _ =>
    (composed_typeParameters? h).bind fun _ => .expect .eq fun _ => .bind ?_ fun _ => ?_
  · exact .cursor fun _ => .ite (.leaf (by decide)) (composed_type h)
  · exact .eat .semi fun _ => .finish (by decide) _ _

theorem composed_constant (annotations : Option Nat) :
    Composed (constant bound parse start annotations) :=
  .expect .kwConst fun _ => .bind (.expectName (by decide)) fun _ =>
    .bind (.after? (composed_type h)) fun _ => .expect .eq fun _ =>
      (composed_expression h).bind fun _ => .eat .semi fun _ => .finish (by decide) _ _

theorem composed_globalVariable (annotations : Option Nat) :
    Composed (globalVariable bound parse start annotations) :=
  .expect .kwGlobal fun _ => .bind (.expectName (by decide)) fun _ => .expect .colon fun _ =>
    (composed_type h).bind fun _ => .eat .semi fun _ => .finish (by decide) _ _

theorem composed_item : Composed (item bound parse) := by
  refine .cursor fun _ => (composed_annotations? h).bind fun annotations => .cursor fun c => ?_
  split
  · exact composed_importDirective
  · exact composed_function h _ _
  · exact composed_struct h _
  · exact composed_enum h _
  · exact composed_typeAlias h _
  · exact composed_constant h _
  · exact composed_globalVariable h _
  · exact .ite (.next fun _ => composed_function h _ _) (.fail _)

theorem composed_itemOrSkipped : Composed (itemOrSkipped bound parse) := by
  have hitem : Composed (item bound parse) := composed_item h
  have hskipped := Composed.recovered bound TokenKind.startsItem hitem Composed.pure
  simp only [bind_pure] at hskipped
  exact hskipped

end

theorem composed_grammar (bound : Nat) (n : Nonterminal) : Composed (parser bound n) := by
  induction bound generalizing n with
  | zero => exact .fail _
  | succ bound ih => exact composed_production ih n

/-- Reading a file is composed of the steps. -/
theorem composed_fileItems (bound : Nat) : Composed (fileItems bound (parser bound)) := by
  refine .bind (.collect (.whenAt (.eatThen (.pure _) ?_)) bound) fun _ => .pure _
  exact (composed_itemOrSkipped (composed_grammar bound)).bind fun _ => .pure _

end Grammar

end TolkAnalysis
