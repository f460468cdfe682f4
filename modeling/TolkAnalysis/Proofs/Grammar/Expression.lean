import TolkAnalysis.Grammar.Expression
import TolkAnalysis.Grammar.TypeExpr
import TolkAnalysis.Proofs.Grammar.Runs

/-!
# Nodes of types and expressions

Given that the parsers of the nonterminals build nodes of the right kinds, so does each
production of type expressions and of expressions. The proofs go through a production from left to
right, and the parts of the node come out in the order in which they are read.

Every production of expressions builds a node that computes a value, or the part of one that
it is named for. A loop over operators keeps a single node that reaches from the start of the
expression: each round puts a new node above it.
-/

namespace TolkAnalysis

open ParserState TolkAnalysis.Parser

/-! ### Type expressions -/

/-- The kinds of the nodes that a nonterminal is read as. -/
def Nonterminal.kinds : Nonterminal → NodeKind → Bool
  | .type | .nullableType => NodeKind.isType
  | .expression | .binary _ | .unary => NodeKind.isExpression
  | .variablePattern => NodeKind.isPattern
  | .localVariables => NodeKind.only .localVarsDeclaration
  | .block => NodeKind.only .blockStatement
  | .ifStatement => NodeKind.only .ifStatement
  | .statement => NodeKind.isStatement

namespace Grammar

variable {text : String} {bound : Nat} {parse : Nonterminal → Parser Nat} {s s₀ : ParserState}

/-- The parsers of the nonterminals build nodes of the right kinds. -/
def ParsesAll (text : String) (parse : Nonterminal → Parser Nat) : Prop :=
  ∀ nonterminal, Parses text (parse nonterminal) nonterminal.kinds

theorem parses_typeArguments (hparse : ParsesAll text parse) :
    Parses text (typeArguments bound parse) (NodeKind.only .instantiationTypeList) := by
  intro s hs
  refine .cursor ?_
  refine (Built.nil hs).step (yields_expect (by decide)) fun _ s₁ h₁ => ?_
  refine h₁.seq (yields_commaList bound (hparse .type).map_plain) fun ⟨args, _⟩ s₂ h₂ => ?_
  refine h₂.step (yields_expect (by decide)) fun _ s₃ h₃ => ?_
  exact h₃.made rfl rfl (by simp)

/-- What follows a list of types in round brackets makes it a type. -/
theorem runs_bracketedType (hparse : ParsesAll text parse) {close : Span} {elements : List Child}
    {trailing : Bool} (h : Built text s₀ true [.many NodeKind.isType] elements s)
    (hclose : close.stop = s.previousStop) :
    Runs (bracketedType parse s₀.start close elements trailing) s
      (Made text s₀ NodeKind.isType) (Reaches text s₀) := by
  refine .bind (.check ?_)
  split
  · -- The list before the arrow ends with its bracket, and the arrow has been read since.
    rename_i hat
    have hcurrent : s.current.kind ≠ .endOfFile := by
      simp [Cursor.current_kind_eq_of_isAt hat]
    have hparams : Made text s₀ (NodeKind.only .tensorType) s.advance.arena.size
        { s.advance with
          arena := s.advance.arena.push .tensorType ⟨s₀.start, close.stop⟩ elements } := hclose ▸ h.push (.advance h.sound) rfl
    refine .bind (.of_modify (.pure ?_))
    rw [if_pos rfl]
    refine .bind (.of_push ?_)
    refine (hparams (some .paramTypes)).node (some .returnType) (hparse .nullableType)
      fun result s₁ h₁ => ?_
    exact h₁.made rfl rfl (by simp)
  · refine .pure ?_
    rw [if_neg (by simp)]
    split
    · exact (h.relabel _).made rfl rfl (by simp)
    · exact h.made rfl rfl (by simp)

theorem parses_primaryType (hparse : ParsesAll text parse) :
    Parses text (primaryType bound parse) NodeKind.isType := by
  intro s hs
  refine .cursor ?_
  dsimp only
  split
  · refine runs_leaf_bind hs (by simp [*]) rfl fun name s₁ h₁ => ?_
    refine .check ?_
    split
    · refine (h₁ (some .name)).node (some .arguments) (parses_typeArguments hparse)
        fun args s₂ h₂ => ?_
      exact h₂.made rfl rfl (by simp)
    · exact .pure (h₁.of_only rfl)
  · exact runs_leaf hs (by simp [*]) rfl rfl
  · refine (Built.nil hs).next (by simp [*]) fun h₁ => ?_
    refine h₁.seq (yields_commaList bound (hparse .type).map_plain) fun ⟨elements, _⟩ s₂ h₂ => ?_
    refine runs_expect_bind h₂ (by decide) fun close s₃ hclose h₃ => ?_
    exact runs_bracketedType hparse h₃ hclose
  · refine (Built.nil hs).next (by simp [*]) fun h₁ => ?_
    refine h₁.seq (yields_commaList bound (hparse .type).map_plain) fun ⟨elements, _⟩ s₂ h₂ => ?_
    refine h₂.step (yields_expect (by decide)) fun _ s₃ h₃ => ?_
    exact h₃.made rfl rfl (by simp)
  · exact .fail (.refl hs)

theorem parses_nullableType (hparse : ParsesAll text parse) :
    Parses text (nullableType bound parse) NodeKind.isType := by
  intro s hs
  refine .cursor ?_
  refine (parses_primaryType hparse).bind hs fun first s₁ h₁ => ?_
  refine .iterate (fun inner s₂ h₂ => ?_) bound h₁
  refine h₂.step (yields_eat (by decide)) fun b s₃ h₃ => ?_
  split
  · exact .map ((h₃ (some .inner)).made rfl rfl (by simp))
  · exact .pure h₃

theorem yields_variant? (hparse : ParsesAll text parse) :
    Yields text (variant? bound parse) (fun _ => false) [.many NodeKind.isType]
      fun r => (r.map fun c => [c]).getD [] := by
  intro s hs
  refine (Built.nil hs).step (yields_eat (by decide)) fun b s₁ h₁ => ?_
  split
  · refine .map (((parses_nullableType hparse) s₁ h₁.sound).mono (fun id s₂ h₂ => ?_)
      fun _ hE => h₁.toReaches.trans hE)
    exact ((h₁.append (h₂ none)).of_fits Fits.many_of).of_read (by simp)
  · exact .pure ((h₁.of_fits fun _ => Fits.many_nil _ _).of_read (by simp))

theorem parses_type (hparse : ParsesAll text parse) :
    Parses text (type bound parse) NodeKind.isType := by
  intro s hs
  refine .cursor ?_
  refine (parses_nullableType hparse).bind hs fun first s₁ h₁ => ?_
  refine .check ?_
  split
  · refine ((h₁ none).of_fits Fits.many_of).seq_many (yields_collect bound (yields_variant? hparse))
      fun others s₂ h₂ => ?_
    exact h₂.made rfl rfl (by simp)
  · exact .pure h₁

/-! ### Tokens of operators -/

theorem kindAt_ne_of_lt_one {c : Cursor} (h : c.current.kind ≠ .endOfFile) :
    ∀ i < 1, c.kindAt i ≠ .endOfFile := by
  intro i hi
  obtain rfl : i = 0 := by omega
  rwa [Cursor.kindAt_zero]

theorem kindAt_ne_of_lt_two {c : Cursor} (h : c.current.kind ≠ .endOfFile)
    (h' : c.kindAt 1 ≠ .endOfFile) : ∀ i < 2, c.kindAt i ≠ .endOfFile := by
  intro i hi
  rcases (by omega : i < 1 ∨ i = 1) with hlt | rfl
  · exact kindAt_ne_of_lt_one h i hlt
  · exact h'

theorem kindAt_one_of_isAtShiftRight {c : Cursor} (h : c.isAtShiftRight = true) :
    c.kindAt 1 = .gt := by
  simp only [Cursor.isAtShiftRight, Bool.and_eq_true, beq_iff_eq] at h
  exact h.1.2

theorem kindAt_one_of_isAtGreaterEqual {c : Cursor} (h : c.isAtGreaterEqual = true) :
    c.kindAt 1 = .eq := by
  simp only [Cursor.isAtGreaterEqual, Bool.and_eq_true, beq_iff_eq] at h
  exact h.1.2

/-- A binary operator has tokens, and none of them ends the file. -/
theorem binaryOperator?_tokens {c : Cursor} {op : BinaryOperator}
    (h : binaryOperator? c = some op) :
    0 < op.tokens ∧ ∀ i < op.tokens, c.kindAt i ≠ .endOfFile := by
  have hcurrent : c.current.kind ≠ .endOfFile := by
    intro hend
    simp [binaryOperator?, hend] at h
  have hone := kindAt_ne_of_lt_one hcurrent
  unfold binaryOperator? at h
  split at h
  case h_11 =>
    split at h
    · cases h
    split at h
    · rename_i hshift
      cases h
      exact ⟨Nat.two_pos,
        kindAt_ne_of_lt_two hcurrent (by simp [kindAt_one_of_isAtShiftRight hshift])⟩
    split at h
    · rename_i hge
      cases h
      exact ⟨Nat.two_pos,
        kindAt_ne_of_lt_two hcurrent (by simp [kindAt_one_of_isAtGreaterEqual hge])⟩
    · cases h
      exact ⟨Nat.one_pos, hone⟩
  all_goals
    cases h
    try exact ⟨Nat.one_pos, hone⟩

/-- A compound assignment operator has tokens, and none of them ends the file. -/
theorem assignmentOperator?_tokens {c : Cursor} {count : Nat}
    (h : assignmentOperator? c = some count) :
    0 < count ∧ ∀ i < count, c.kindAt i ≠ .endOfFile := by
  unfold assignmentOperator? at h
  split at h
  · rename_i hshift
    cases h
    simp only [Cursor.isAtShiftRightAssign, Bool.and_eq_true, beq_iff_eq] at hshift
    obtain ⟨⟨hshift, heq⟩, -⟩ := hshift
    have hcurrent : c.current.kind ≠ .endOfFile := by
      simp only [Cursor.isAtShiftRight, Bool.and_eq_true] at hshift
      simp [Cursor.current_kind_eq_of_isAt hshift.1.1]
    have hpair := kindAt_ne_of_lt_two hcurrent (by simp [kindAt_one_of_isAtShiftRight hshift])
    refine ⟨by decide, fun i hi => ?_⟩
    rcases (by omega : i < 2 ∨ i = 2) with hlt | rfl
    · exact hpair i hlt
    · simp [heq]
  · have hcurrent : c.current.kind ≠ .endOfFile := by
      intro hend
      simp [hend] at h
    split at h
    all_goals
      cases h
      try exact ⟨Nat.one_pos, kindAt_ne_of_lt_one hcurrent⟩

/-- A type test has tokens, and none of them ends the file. -/
theorem typeTest_tokens {c : Cursor}
    (h : (c.isAt .kwIs || c.isAt .bang && c.kindAt 1 == .kwIs) = true) :
    0 < (if (c.isAt .bang && c.kindAt 1 == .kwIs) = true then 2 else 1) ∧
      ∀ i < (if (c.isAt .bang && c.kindAt 1 == .kwIs) = true then 2 else 1),
        c.kindAt i ≠ .endOfFile := by
  split
  · rename_i hnegated
    simp only [Bool.and_eq_true, beq_iff_eq] at hnegated
    have hcurrent : c.current.kind ≠ .endOfFile := by
      simp [Cursor.current_kind_eq_of_isAt hnegated.1]
    exact ⟨Nat.two_pos, kindAt_ne_of_lt_two hcurrent (by simp [hnegated.2])⟩
  · rename_i hplain
    have hat : c.isAt .kwIs = true := by simpa [hplain] using h
    exact ⟨Nat.one_pos, kindAt_ne_of_lt_one (by simp [Cursor.current_kind_eq_of_isAt hat])⟩

theorem current_kind_ne_of_isAtWord {c : Cursor} {word : String} (h : c.isAtWord word = true) :
    c.current.kind ≠ .endOfFile := by
  simp [Cursor.current_kind_eq_of_isAt (Cursor.isAt_of_isAtWord h)]

theorem current_kind_ne_of_isAtMutate {c : Cursor} (h : c.isAtMutate = true) :
    c.current.kind ≠ .endOfFile := by
  simp only [Cursor.isAtMutate, Bool.and_eq_true] at h
  exact current_kind_ne_of_isAtWord h.1

/-! ### Arguments and object literals -/

theorem yields_callArgument (hparse : ParsesAll text parse) :
    Yields text (callArgument parse) (fun _ => true)
      [⟨.one, none, NodeKind.only .callArgument⟩] fun c => [c] := by
  intro s hs
  refine .cursor ?_
  refine (Built.nil hs).seq (yields_mark? (fun _ => current_kind_ne_of_isAtMutate) rfl)
    fun mutate s₁ h₁ => ?_
  refine h₁.node (some .expr) (hparse .expression) fun expr s₂ h₂ => ?_
  exact .map (h₂.finish rfl (by simp) fun _ _ h => h none)

theorem parses_argumentList (hparse : ParsesAll text parse) :
    Parses text (argumentList bound parse) (NodeKind.only .argumentList) := by
  intro s hs
  refine .cursor ?_
  refine (Built.nil hs).step (yields_expect (by decide)) fun _ s₁ h₁ => ?_
  refine h₁.seq (yields_commaList bound (yields_callArgument hparse)) fun ⟨args, _⟩ s₂ h₂ => ?_
  refine h₂.step (yields_expect (by decide)) fun _ s₃ h₃ => ?_
  exact h₃.made rfl rfl (by simp)

theorem yields_instanceArgument (hparse : ParsesAll text parse) :
    Yields text (instanceArgument parse) (fun _ => true)
      [⟨.one, none, NodeKind.only .instanceArgument⟩] fun c => [c] := by
  intro s hs
  refine .cursor ?_
  refine (Built.nil hs).node (some .name) (parses_expectName rfl) fun name s₁ h₁ => ?_
  refine h₁.seq (yields_after? (by decide) (hparse .expression)) fun value s₂ h₂ => ?_
  exact .map (h₂.finish rfl (by simp) fun _ _ h => h none)

theorem parses_objectLiteralBody (hparse : ParsesAll text parse) :
    Parses text (objectLiteralBody bound parse) (NodeKind.only .objectLiteralBody) := by
  intro s hs
  refine .cursor ?_
  refine (Built.nil hs).step (yields_expect (by decide)) fun _ s₁ h₁ => ?_
  refine h₁.seq (yields_commaList bound (yields_instanceArgument hparse))
    fun ⟨args, _⟩ s₂ h₂ => ?_
  refine h₂.step (yields_expect (by decide)) fun _ s₃ h₃ => ?_
  exact h₃.made rfl rfl (by simp)

/-- The rest of an object literal after its type, if it has one. -/
theorem runs_objectLiteral (hparse : ParsesAll text parse) {read : Bool} {type : Option Nat}
    (h : Built text s₀ read [.optional .typeExpr NodeKind.isType]
      (type.map (Child.labeled .typeExpr)).toList s) :
    Runs (objectLiteral bound parse s₀.start type) s (Made text s₀ NodeKind.isExpression)
      (Reaches text s₀) := by
  refine h.node (some .arguments) (parses_objectLiteralBody hparse) fun body s₁ h₁ => ?_
  exact h₁.made rfl rfl (by simp)

theorem runs_nameOrObjectLiteral (hparse : ParsesAll text parse) (hs : s.Sound text)
    (hcurrent : s.current.kind ≠ .endOfFile) :
    Runs (nameOrObjectLiteral bound parse) s (Made text s NodeKind.isExpression)
      (Reaches text s) := by
  have hname : Runs (leaf .identifier) s (Made text s NodeKind.isExpression) (Reaches text s) :=
    runs_leaf hs hcurrent rfl rfl
  have htyped : ∀ {id : Nat} {s₁ : ParserState}, Made text s NodeKind.isType id s₁ →
      Runs (objectLiteral bound parse s.start (some id)) s₁ (Made text s NodeKind.isExpression)
        (Reaches text s) :=
    fun h₁ => runs_objectLiteral hparse ((h₁ (some .typeExpr)).of_fits Fits.optional_of_one)
  refine .cursor ?_
  split
  · exact runs_leaf_bind hs hcurrent rfl fun id s₁ h₁ => htyped (h₁.of_only rfl)
  · refine .bind ((runs_attempt (parses_type hparse) hs).mono ?_ fun _ hE => hE)
    rintro (_ | id) s₁ h₁
    · exact h₁ ▸ hname
    · exact htyped h₁.1
  · exact hname

/-! ### Matches -/

theorem parses_armPattern (hparse : ParsesAll text parse) :
    Parses text (armPattern bound parse) (NodeKind.either (NodeKind.only .matchElse)
      (NodeKind.either NodeKind.isType NodeKind.isExpression)) := by
  intro s hs
  refine .check ?_
  split
  · rename_i hat
    exact runs_leaf hs (by simp [Cursor.current_kind_eq_of_isAt hat]) rfl rfl
  · refine .bind ((runs_attempt (parses_type hparse) hs).mono ?_ fun _ hE => hE)
    rintro (_ | id) s₁ h₁
    · subst h₁
      exact (hparse .expression).mono
        (fun _ hk => NodeKind.either_right (NodeKind.either_right hk)) _ hs
    · exact .pure (h₁.1.mono fun _ hk => NodeKind.either_right (NodeKind.either_left hk))

theorem parses_armBody (hparse : ParsesAll text parse) :
    Parses text (armBody parse)
      (NodeKind.either (NodeKind.only .blockStatement) NodeKind.isExpression) := by
  intro s hs
  refine .check ?_
  split
  · exact (hparse .block).mono (fun _ hk => NodeKind.either_left hk) _ hs
  · exact (hparse .expression).mono (fun _ hk => NodeKind.either_right hk) _ hs

theorem yields_matchArm (hparse : ParsesAll text parse) :
    Yields text (matchArm bound parse) (fun _ => true)
      [⟨.one, some .arms, NodeKind.only .matchArm⟩] fun c => [c] := by
  intro s hs
  refine .cursor ?_
  refine (Built.nil hs).node (some .pattern) (parses_armPattern hparse) fun pattern s₁ h₁ => ?_
  refine h₁.step (yields_expect (by decide)) fun _ s₂ h₂ => ?_
  refine h₂.node (some .body) (parses_armBody hparse) fun body s₃ h₃ => ?_
  refine .bind (h₃.finish rfl (by simp) fun arm s₄ h₄ => ?_)
  exact h₄.step (yields_skipSeparators bound) fun _ s₅ h₅ => .pure (h₅ (some .arms))

theorem parses_matchSubject (hparse : ParsesAll text parse) :
    Parses text (matchSubject parse)
      (NodeKind.either NodeKind.isExpression (NodeKind.only .localVarsDeclaration)) := by
  intro s hs
  refine .cursor ?_
  split
  · exact (hparse .localVariables).mono (fun _ hk => NodeKind.either_right hk) _ hs
  · exact (hparse .expression).mono (fun _ hk => NodeKind.either_left hk) _ hs

theorem parses_matchExpression (hparse : ParsesAll text parse) :
    Parses text (matchExpression bound parse) (NodeKind.only .matchExpression) := by
  have harm : ∀ s, s.Sound text → s.isInside = true → Runs (matchArm bound parse) s
      (fun a s' => Built text s true [⟨.many, some .arms, NodeKind.only .matchArm⟩] [a] s')
      (Reaches text s) := fun s hs _ => (yields_matchArm hparse).many s hs
  intro s hs
  refine .cursor ?_
  refine (Built.nil hs).step (yields_expect (by decide)) fun _ s₁ h₁ => ?_
  refine h₁.step (yields_expect (by decide)) fun _ s₂ h₂ => ?_
  refine h₂.node (some .expr) (parses_matchSubject hparse) fun subject s₃ h₃ => ?_
  refine h₃.step (yields_expect (by decide)) fun _ s₄ h₄ => ?_
  refine h₄.step (yields_expect (by decide)) fun _ s₅ h₅ => ?_
  refine h₅.seq (yields_collect bound (yields_whenAt harm)) fun arms s₆ h₆ => ?_
  refine h₆.step (yields_expect (by decide)) fun _ s₇ h₇ => ?_
  exact h₇.made rfl rfl (by simp)

/-! ### Expressions from the tightest to the loosest -/

theorem parses_primary (hparse : ParsesAll text parse) :
    Parses text (primary bound parse) NodeKind.isExpression := by
  intro s hs
  refine .cursor ?_
  dsimp only
  split
  · exact runs_leaf hs (by simp [*]) rfl rfl
  · exact runs_leaf hs (by simp [*]) rfl rfl
  · exact runs_leaf hs (by simp [*]) rfl rfl
  · exact runs_leaf hs (by simp [*]) rfl rfl
  · exact runs_leaf hs (by simp [*]) rfl rfl
  · exact runs_leaf hs (by simp [*]) rfl rfl
  · exact runs_nameOrObjectLiteral hparse hs (by simp [*])
  · exact runs_objectLiteral hparse ((Built.nil hs).of_fits fun _ => Fits.optional_nil _ _)
  · refine (Built.nil hs).next (by simp [*]) fun h₁ => ?_
    refine h₁.seq (yields_commaList bound (hparse .expression).map_plain)
      fun ⟨elements, trailing⟩ s₂ h₂ => ?_
    refine h₂.step (yields_expect (by decide)) fun _ s₃ h₃ => ?_
    split
    · rename_i single helements _
      obtain rfl : elements = [single] := helements
      exact (h₃.relabel _).made rfl rfl (by simp)
    · exact h₃.made rfl rfl (by simp)
  · refine (Built.nil hs).next (by simp [*]) fun h₁ => ?_
    refine h₁.seq (yields_commaList bound (hparse .expression).map_plain)
      fun ⟨elements, _⟩ s₂ h₂ => ?_
    refine h₂.step (yields_expect (by decide)) fun _ s₃ h₃ => ?_
    exact h₃.made rfl rfl (by simp)
  · exact (parses_matchExpression hparse).of_only rfl s hs
  · exact .fail (.refl hs)

theorem parses_memberName :
    Parses text memberName (NodeKind.either (NodeKind.only .identifier)
      (NodeKind.only .numericIndex)) := by
  intro s hs
  refine .cursor ?_
  split
  · exact runs_leaf hs (by simp [*]) rfl rfl
  · exact runs_leaf hs (by simp [*]) rfl rfl
  · exact .fail (.refl hs)

/-- A round of the loop over calls and accesses keeps one expression. -/
theorem runs_postfixStep (hparse : ParsesAll text parse) {expr : Nat}
    (h : Made text s₀ NodeKind.isExpression expr s) :
    Runs (postfixStep bound parse s₀.start expr) s
      (fun r s' => Made text s₀ NodeKind.isExpression (r.getD expr) s') (Reaches text s₀) := by
  refine .cursor ?_
  split
  · refine (h (some .callee)).node (some .arguments) (parses_argumentList hparse)
      fun args s₁ h₁ => ?_
    exact .map (h₁.made rfl rfl (by simp))
  · refine (h (some .obj)).next (by simp [*]) fun h₁ => ?_
    refine h₁.node (some .field) parses_memberName fun member s₂ h₂ => ?_
    exact .map (h₂.made rfl rfl (by simp))
  · split
    · exact .pure h
    · refine (h (some .inner)).next (by simp [*]) fun h₁ => ?_
      exact .map (h₁.made rfl rfl (by simp))
  · refine .bind ((runs_attempt (parses_typeArguments hparse) h.reaches.sound).mono ?_
      fun _ hE => hE)
    rintro (_ | args) s₁ h₁
    · subst h₁
      exact .pure h
    · exact .map (((h (some .expr)).append (h₁.1 (some .arguments))).made rfl rfl (by simp))
  · exact .pure h

theorem parses_postfixed (hparse : ParsesAll text parse) :
    Parses text (postfixed bound parse) NodeKind.isExpression := by
  intro s hs
  refine .cursor ?_
  refine (parses_primary hparse).bind hs fun first s₁ h₁ => ?_
  exact .iterate (fun _ _ h => runs_postfixStep hparse h) bound h₁

theorem runs_castStep (hparse : ParsesAll text parse) {expr : Nat}
    (h : Made text s₀ NodeKind.isExpression expr s) :
    Runs (castStep bound parse s₀.start expr) s
      (fun r s' => Made text s₀ NodeKind.isExpression (r.getD expr) s') (Reaches text s₀) := by
  refine h.step (yields_eat (by decide)) fun b s₁ h₁ => ?_
  split
  · refine (h₁ (some .expr)).node (some .castedTo) (parses_type hparse) fun target s₂ h₂ => ?_
    exact .map (h₂.made rfl rfl (by simp))
  · refine .cursor ?_
    dsimp only
    split
    · rename_i hop
      obtain ⟨hcount, hkinds⟩ := typeTest_tokens hop
      refine (h₁ (some .expr)).node_of (some .operatorName)
        (runs_operator h₁.reaches.sound hcount hkinds) fun op s₂ h₂ => ?_
      refine h₂.node (some .rhsType) (parses_type hparse) fun rhs s₃ h₃ => ?_
      exact .map (h₃.made rfl rfl (by simp))
    · exact .pure h₁

theorem parses_cast (hparse : ParsesAll text parse) :
    Parses text (cast bound parse) NodeKind.isExpression := by
  intro s hs
  refine .cursor ?_
  refine (parses_postfixed hparse).bind hs fun first s₁ h₁ => ?_
  exact .iterate (fun _ _ h => runs_castStep hparse h) bound h₁

theorem parses_unary (hparse : ParsesAll text parse) :
    Parses text (unary bound parse) NodeKind.isExpression := by
  have hprefix : ∀ s : ParserState, s.Sound text → s.current.kind ≠ .endOfFile →
      Runs (operator 1 >>= fun op => parse .unary >>= fun argument =>
        Parser.finish .unaryOperator s.start
          [.labeled .operatorName op, .labeled .argument argument])
        s (Made text s NodeKind.isExpression) (Reaches text s) := by
    intro s hs hcurrent
    refine (Built.nil hs).node_of (some .operatorName)
      (runs_operator hs Nat.one_pos (kindAt_ne_of_lt_one hcurrent)) fun op s₁ h₁ => ?_
    refine h₁.node (some .argument) (hparse .unary) fun argument s₂ h₂ => ?_
    exact h₂.made rfl rfl (by simp)
  intro s hs
  refine .cursor ?_
  split
  · exact hprefix s hs (by simp [*])
  · exact hprefix s hs (by simp [*])
  · exact hprefix s hs (by simp [*])
  · exact hprefix s hs (by simp [*])
  · refine (Built.nil hs).next (by simp [*]) fun h₁ => ?_
    refine h₁.node (some .argument) (hparse .unary) fun argument s₂ h₂ => ?_
    exact h₂.made rfl rfl (by simp)
  · exact parses_cast hparse s hs

theorem runs_binaryStep (hparse : ParsesAll text parse) {level left : Nat}
    (h : Made text s₀ NodeKind.isExpression left s) :
    Runs (binaryStep parse level s₀.start left) s
      (fun r s' => Made text s₀ NodeKind.isExpression (r.getD left) s') (Reaches text s₀) := by
  refine .cursor ?_
  split
  · rename_i op hop
    obtain ⟨hcount, hkinds⟩ := binaryOperator?_tokens hop
    split
    · exact .pure h
    · refine (h (some .left)).node_of (some .operatorName)
        (runs_operator h.reaches.sound hcount hkinds) fun operator s₁ h₁ => ?_
      refine h₁.node (some .right) (hparse (.binary (op.level + 1))) fun right s₂ h₂ => ?_
      exact .map (h₂.made rfl rfl (by simp))
  · exact .pure h

theorem parses_binary (hparse : ParsesAll text parse) (level : Nat) :
    Parses text (binary bound parse level) NodeKind.isExpression := by
  intro s hs
  refine .cursor ?_
  refine (parses_unary hparse).bind hs fun first s₁ h₁ => ?_
  exact .iterate (fun _ _ h => runs_binaryStep hparse h) bound h₁

theorem runs_nullishStep (hparse : ParsesAll text parse) {left : Nat}
    (h : Made text s₀ NodeKind.isExpression left s) :
    Runs (nullishStep bound parse s₀.start left) s
      (fun r s' => Made text s₀ NodeKind.isExpression (r.getD left) s') (Reaches text s₀) := by
  refine .check ?_
  split
  · rename_i hat
    have hcurrent : s.current.kind ≠ .endOfFile := by
      simp [Cursor.current_kind_eq_of_isAt hat]
    refine (h (some .left)).node_of (some .operatorName)
      (runs_operator h.reaches.sound Nat.one_pos (kindAt_ne_of_lt_one hcurrent))
      fun operator s₁ h₁ => ?_
    refine h₁.node (some .right) (parses_binary hparse 1) fun right s₂ h₂ => ?_
    exact .map (h₂.made rfl rfl (by simp))
  · exact .pure h

theorem parses_nullish (hparse : ParsesAll text parse) :
    Parses text (nullish bound parse) NodeKind.isExpression := by
  intro s hs
  refine .cursor ?_
  refine (parses_binary hparse 1).bind hs fun first s₁ h₁ => ?_
  exact .iterate (fun _ _ h => runs_nullishStep hparse h) bound h₁

theorem parses_ternary (hparse : ParsesAll text parse) :
    Parses text (ternary bound parse) NodeKind.isExpression := by
  intro s hs
  refine .cursor ?_
  refine (parses_nullish hparse).bind hs fun condition s₁ h₁ => ?_
  refine h₁.step (yields_eat (by decide)) fun b s₂ h₂ => ?_
  split
  · refine (h₂ (some .condition)).node (some .consequence) (hparse .expression)
      fun consequence s₃ h₃ => ?_
    refine h₃.step (yields_expect (by decide)) fun _ s₄ h₄ => ?_
    refine h₄.node (some .alternative) (hparse .expression) fun alternative s₅ h₅ => ?_
    exact h₅.made rfl rfl (by simp)
  · exact .pure h₂

theorem parses_expression (hparse : ParsesAll text parse) :
    Parses text (expression bound parse) NodeKind.isExpression := by
  intro s hs
  refine .cursor ?_
  refine (parses_ternary hparse).bind hs fun left s₁ h₁ => ?_
  refine h₁.step (yields_eat (by decide)) fun b s₂ h₂ => ?_
  split
  · refine (h₂ (some .left)).node (some .right) (hparse .expression) fun right s₃ h₃ => ?_
    exact h₃.made rfl rfl (by simp)
  · refine .cursor ?_
    split
    · rename_i count hop
      obtain ⟨hcount, hkinds⟩ := assignmentOperator?_tokens hop
      refine (h₂ (some .left)).node_of (some .operatorName)
        (runs_operator h₂.reaches.sound hcount hkinds) fun operator s₃ h₃ => ?_
      refine h₃.node (some .right) (hparse .expression) fun right s₄ h₄ => ?_
      exact h₄.made rfl rfl (by simp)
    · exact .pure h₂

end Grammar

end TolkAnalysis
