import TolkAnalysis.Grammar.Expression
import TolkAnalysis.Grammar.TypeExpr
import TolkAnalysis.Proofs.Grammar.Abreast.Runs

/-!
# Types and expressions read abreast

Given that the parsers of the nonterminals read abreast where few tokens are left, so does each
production of type expressions and of expressions. A production may be entered where one more token
is left, since it reads a token before it uses a nonterminal.

What decides between the productions of expressions are the kinds of the next tokens, and for the
operators that begin with `>` whether these tokens touch. Where the lists part, no rule for
expressions goes on.
-/

namespace TolkAnalysis

namespace Pairing

open TolkAnalysis.Parser TolkAnalysis.Grammar

variable {F : Pairing} {P p n i bound bound' : Nat} {parse parse' : Nonterminal → Parser Nat}

/-! ### Type expressions -/

/-- The parsers of the nonterminals read abreast where fewer than `n` tokens are left, and the
bounds on rounds are not met there. -/
structure Agree (F : Pairing) (n bound bound' : Nat) (parse parse' : Nonterminal → Parser Nat) :
    Prop where
  le : n ≤ bound
  le' : n ≤ bound'
  abreast : ∀ P p nonterminal, F.tokens.length < p + n →
    F.Abreast P p (parse nonterminal) (parse' nonterminal) (Moves p F.node)

namespace Agree

/-- Children without a slot that are nodes of a nonterminal, with commas between them. -/
theorem commaList (h : F.Agree n bound bound' parse parse') {close : TokenKind}
    (hclose : close.mayFollow = false) (nonterminal : Nonterminal)
    (hp : F.tokens.length < p + n) :
    F.Abreast P p (Parser.commaList close (Child.plain <$> parse nonterminal) bound)
      (Parser.commaList close (Child.plain <$> parse' nonterminal) bound')
      (Maps (Prod.map (List.map F.child) id)) := by
  have hle := h.le
  have hle' := h.le'
  refine .commaList hclose (fun q hq => ?_) (by omega) (by omega)
  exact (h.abreast P q nonterminal (by omega)).map fun _ id _ _ ⟨hlt, hid⟩ => ⟨hlt, by rw [hid]; rfl⟩

end Agree

section

variable (h : F.Agree n bound bound' parse parse')

include h

theorem abreast_typeArguments (hp : F.tokens.length ≤ p + n) :
    F.Abreast P p (typeArguments bound parse) (typeArguments bound' parse') (Moves p F.node) := by
  refine .start fun hstart => ?_
  refine .expect (.inl rfl) (by decide) (by decide) fun _ _ => ?_
  refine .bind (h.commaList rfl .type (by omega)) fun q args _ hq hargs => ?_
  subst hargs
  refine .expect (.inl rfl) (by decide) (by decide) fun _ _ => ?_
  exact .finish hstart (by omega) rfl

/-- What follows a list of types in round brackets. The list begins with the token at `i` and ends
before the place. -/
theorem abreast_bracketedType (hp : F.tokens.length < p + n) {start start' : Nat}
    (hstart : F.Starts i start start') {j : Nat} {t : Token × Token} (hij : i ≤ j)
    (ht : F.tokens[j]? = some t) (hj : j < p) (elements : List Child) (trailing : Bool) :
    F.Abreast P p (bracketedType parse start t.1.span elements trailing)
      (bracketedType parse' start' t.2.span (elements.map F.child) trailing) (Moves i F.node) := by
  refine .ifEat rfl (by decide) (fun _ => ?_) ?_
  · have hu := List.getElem?_eq_getElem (Nat.lt_of_le_of_lt hij (lt_of_token ht))
    obtain ⟨rfl, rfl⟩ := hstart _ hu
    refine .bind (.push (F.between hij hu ht).1 rfl) fun q params _ hq ⟨_, hparams⟩ => ?_
    subst hparams
    refine .bind (h.abreast P q .nullableType (by omega)) fun r result _ _ ⟨hlt, hresult⟩ => ?_
    subst hresult
    exact .finish hstart (by omega) rfl
  · match elements, trailing with
    | [single], false => exact .finish hstart (by omega) rfl
    | [], _ | _ :: _ :: _, _ | [_], true => exact .finish hstart (by omega) rfl

theorem abreast_primaryType (hp : F.tokens.length ≤ p + n) :
    F.Abreast P p (primaryType bound parse) (primaryType bound' parse') (Moves p F.node) := by
  refine .cursor fun {c c'} hc _ => ?_
  have hstart := hc.start
  obtain hsame | ⟨hend, hbegins⟩ := hc.kinds
  · dsimp only
    rw [hsame]
    split
    · have hkind := hc.kind?_of_eq ‹c.current.kind = _› (by decide)
      refine .bind (.leaf hkind (by decide)) fun q name _ _ ⟨hq, hname⟩ => ?_
      subst hname
      refine .ifCheck (.inl rfl) (by decide) (fun _ => ?_) (.pure ⟨by omega, rfl⟩)
      refine .bind (abreast_typeArguments h (by omega)) fun r args _ _ ⟨hlt, hargs⟩ => ?_
      subst hargs
      exact .finish hstart (by omega) rfl
    · have hkind := hc.kind?_of_eq ‹c.current.kind = _› (by decide)
      exact .leaf_moves hkind (by decide)
    · have hkind := hc.kind?_of_eq ‹c.current.kind = _› (by decide)
      refine .next hkind (by decide) fun _ => ?_
      refine .bind (h.commaList rfl .type (by omega)) fun q args _ hq hargs => ?_
      subst hargs
      refine .expect (.inl rfl) (by decide) (by decide) fun ht _ => ?_
      exact abreast_bracketedType h (by omega) hstart (by omega) ht (by omega) args.1 args.2
    · have hkind := hc.kind?_of_eq ‹c.current.kind = _› (by decide)
      refine .next hkind (by decide) fun _ => ?_
      refine .bind (h.commaList rfl .type (by omega)) fun q args _ hq hargs => ?_
      subst hargs
      refine .expect (.inl rfl) (by decide) (by decide) fun _ _ => ?_
      exact .finish hstart (by omega) rfl
    · exact .fail _
  · dsimp only
    rw [hend]
    generalize c'.current.kind = kind at hbegins
    cases kind <;> first | exact .fail _ | cases hbegins

theorem abreast_nullableType (hp : F.tokens.length ≤ p + n) :
    F.Abreast P p (nullableType bound parse) (nullableType bound' parse') (Moves p F.node) := by
  have hle := h.le
  have hle' := h.le'
  refine .start fun {c c'} hstart => ?_
  refine .bind (abreast_primaryType h hp) fun q first _ _ ⟨hlt, hfirst⟩ => ?_
  subst hfirst
  refine (Abreast.iterate (fun r inner hr => ?_) (by omega) (by omega) first).mono
    fun _ _ _ _ hid => ⟨by omega, hid⟩
  refine .ifEat rfl (by decide) (fun _ => ?_) (.pure ⟨rfl, nofun⟩)
  exact .some_finish hstart (by omega) (Nat.lt_succ_self r) rfl

theorem abreast_variant? (hp : F.tokens.length < p + n) :
    F.Abreast P p (variant? bound parse) (variant? bound' parse') (Advances p F.child) := by
  refine .ifEat rfl (by decide) (fun _ => ?_) (.pure ⟨rfl, nofun⟩)
  exact (abreast_nullableType h (by omega)).map fun _ id _ _ ⟨_, hid⟩ =>
    ⟨by rw [hid]; rfl, fun _ => by omega⟩

theorem abreast_type (hp : F.tokens.length ≤ p + n) :
    F.Abreast P p (type bound parse) (type bound' parse') (Moves p F.node) := by
  have hle := h.le
  have hle' := h.le'
  refine .start fun {c c'} hstart => ?_
  refine .bind (abreast_nullableType h hp) fun q first _ _ ⟨hlt, hfirst⟩ => ?_
  subst hfirst
  refine .ifCheck (.inl rfl) (by decide) (fun _ => ?_) (.pure ⟨hlt, rfl⟩)
  refine .bind (.collect (fun r hr => abreast_variant? h (by omega)) (by omega) (by omega))
    fun r others _ _ hothers => ?_
  rw [hothers]
  exact .finish hstart (by omega) rfl

end

variable {c c' : Cursor}

/-! ### Operators -/

namespace Cursors

theorem binaryOperator?_eq (hc : F.Cursors p c c') : binaryOperator? c' = binaryOperator? c := by
  unfold binaryOperator?
  rw [hc.isAtShiftRightAssign_eq, hc.isAtShiftRight_eq, hc.isAtGreaterEqual_eq]
  obtain hsame | ⟨hend, hbegins⟩ := hc.kinds
  · rw [hsame]
  · rw [hend]
    generalize c'.current.kind = kind at hbegins
    cases kind <;> first | rfl | cases hbegins

theorem assignmentOperator?_eq (hc : F.Cursors p c c') :
    assignmentOperator? c' = assignmentOperator? c := by
  unfold assignmentOperator?
  rw [hc.isAtShiftRightAssign_eq]
  obtain hsame | ⟨hend, hbegins⟩ := hc.kinds
  · rw [hsame]
  · rw [hend]
    generalize c'.current.kind = kind at hbegins
    cases kind <;> first | rfl | cases hbegins

theorem readable_binaryOperator? (hc : F.Cursors p c c') {op : BinaryOperator}
    (hop : binaryOperator? c = some op) : 0 < op.tokens ∧ F.Readable p op.tokens := by
  have hone : ∀ {kind : TokenKind}, c.current.kind = kind → kind ≠ .endOfFile → kind ≠ .rBrace →
      0 < 1 ∧ F.Readable p 1 := fun hkind hend hbrace =>
    ⟨Nat.one_pos, readable_one (hc.kind?_of_eq hkind hend) hbrace⟩
  unfold binaryOperator? at hop
  split at hop
  case h_11 hgt =>
    split at hop
    · cases hop
    · split at hop
      · rename_i hshift
        obtain ⟨hfirst, hsecond⟩ := hc.kinds_of_isAtShiftRight hshift
        cases hop
        exact ⟨Nat.two_pos, (readable_one hsecond (by decide)).succ hfirst (by decide)⟩
      · split at hop
        · rename_i hequal
          obtain ⟨hfirst, hsecond⟩ := hc.kinds_of_isAtGreaterEqual hequal
          cases hop
          exact ⟨Nat.two_pos, (readable_one hsecond (by decide)).succ hfirst (by decide)⟩
        · cases hop
          exact hone hgt (by decide) (by decide)
  all_goals
    cases hop <;> exact hone ‹c.current.kind = _› (by decide) (by decide)

theorem readable_assignmentOperator? (hc : F.Cursors p c c') {count : Nat}
    (hop : assignmentOperator? c = some count) : 0 < count ∧ F.Readable p count := by
  unfold assignmentOperator? at hop
  split at hop
  · rename_i hassign
    obtain ⟨hfirst, hsecond, hthird⟩ := hc.kinds_of_isAtShiftRightAssign hassign
    cases hop
    exact ⟨by decide, ((readable_one hthird (by decide)).succ hsecond (by decide)).succ hfirst
      (by decide)⟩
  · split at hop
    all_goals
      cases hop <;> exact ⟨Nat.one_pos,
        readable_one (hc.kind?_of_eq ‹c.current.kind = _› (by decide)) (by decide)⟩

end Cursors

/-! ### Arguments and object literals -/

section

variable (h : F.Agree n bound bound' parse parse')

include h

theorem abreast_callArgument (hp : F.tokens.length < p + n) :
    F.Abreast P p (callArgument parse) (callArgument parse') (Moves p F.child) := by
  refine .start fun hstart => ?_
  refine .bind (.mark? fun c c' hc => ⟨hc.isAtMutate_eq, hc.kind?_of_isAtMutate⟩)
    fun q mutate _ hq hmutate => ?_
  subst hmutate
  refine .bind (h.abreast P q .expression (by omega)) fun r expr _ _ ⟨hlt, hexpr⟩ => ?_
  subst hexpr
  exact (Abreast.finish hstart (by omega) (by simp)).map fun _ id _ _ ⟨hi, hid⟩ =>
    ⟨hi, by rw [hid]; rfl⟩

theorem abreast_argumentList (hp : F.tokens.length ≤ p + n) :
    F.Abreast P p (argumentList bound parse) (argumentList bound' parse')
      (fun q id id' => Moves p F.node q id id' ∧ F.Mid q) := by
  have hle := h.le
  have hle' := h.le'
  refine .start fun hstart => ?_
  refine .expect (.inl rfl) (by decide) (by decide) fun _ _ => ?_
  refine .bind (.commaList rfl (fun q hq => abreast_callArgument h (by omega)) (by omega) (by omega))
    fun q args _ hq hargs => ?_
  subst hargs
  refine .expect (.inl rfl) (by decide) (by decide) fun _ hclose => ?_
  have hmid := mid_succ hclose (by decide) (by decide)
  exact (Abreast.finish_here hstart (by omega) rfl).mono fun r id _ _ ⟨hr, hid⟩ =>
    ⟨⟨by omega, hid⟩, hr ▸ hmid⟩

theorem abreast_instanceArgument (hp : F.tokens.length < p + n) :
    F.Abreast P p (instanceArgument parse) (instanceArgument parse') (Moves p F.child) := by
  refine .start fun hstart => ?_
  refine .bind .expectName fun q name _ _ ⟨_, hq, hname⟩ => ?_
  subst hname
  refine .bind (.after? rfl (by decide) fun r hr => h.abreast P r .expression (by omega))
    fun r value _ _ hvalue => ?_
  rw [hvalue]
  exact (Abreast.finish hstart (by omega) (by simp)).map fun _ id _ _ ⟨hi, hid⟩ =>
    ⟨hi, by rw [hid]; rfl⟩

theorem abreast_objectLiteralBody (hp : F.tokens.length ≤ p + n) :
    F.Abreast P p (objectLiteralBody bound parse) (objectLiteralBody bound' parse')
      (Moves p F.node) := by
  have hle := h.le
  have hle' := h.le'
  refine .start fun hstart => ?_
  refine .expect_lBrace fun _ _ _ => ?_
  refine .bind (.commaList rfl (fun q hq => abreast_instanceArgument h (by omega)) (by omega)
    (by omega)) fun q args _ hq hargs => ?_
  subst hargs
  refine .expect_rBrace fun _ => ?_
  exact .finish hstart (by omega) rfl

theorem abreast_objectLiteral (hp : F.tokens.length ≤ p + n) {start start' : Nat}
    (hstart : F.Starts i start start') (hip : i ≤ p) (type : Option Nat) :
    F.Abreast P p (objectLiteral bound parse start type)
      (objectLiteral bound' parse' start' (type.map F.node)) (Moves i F.node) := by
  refine .bind (abreast_objectLiteralBody h hp) fun q body _ _ ⟨hlt, hbody⟩ => ?_
  subst hbody
  exact .finish hstart (by omega) (by cases type <;> rfl)

theorem abreast_nameOrObjectLiteral (hp : F.tokens.length ≤ p + n)
    (hkind : F.kind? p = some .ident) :
    F.Abreast P p (nameOrObjectLiteral bound parse) (nameOrObjectLiteral bound' parse')
      (Moves p F.node) := by
  have hname : F.Abreast P p (leaf .identifier) (leaf .identifier) (Moves p F.node) :=
    .leaf_moves hkind (by decide)
  refine .cursor fun {c c'} hc _ => ?_
  have hstart := hc.start
  rw [hc.kindAt_one hkind (by decide) (by decide)]
  split
  · refine .bind (.leaf hkind (by decide)) fun q type _ _ ⟨hq, htype⟩ => ?_
    subst htype
    exact abreast_objectLiteral h (by omega) hstart (by omega) (some type)
  · refine .bind (.attempt (abreast_type h hp) (A := fun _ => True) fun q c c' _ hc =>
      ⟨hc.isAt_eq (.inl rfl), fun _ => trivial⟩) fun q type _ hq ⟨htype, hsome, hnone⟩ => ?_
    subst htype
    cases type with
    | some type => exact abreast_objectLiteral h (by omega) hstart hq (some type)
    | none =>
      obtain rfl := hnone rfl
      exact hname
  · exact hname

/-! ### Matches -/

theorem abreast_armPattern (hp : F.tokens.length < p + n) :
    F.Abreast P p (armPattern bound parse) (armPattern bound' parse') (Moves p F.node) := by
  refine .ifCheck (.inl rfl) (by decide) (fun hkind => ?_) ?_
  · exact .leaf_moves hkind (by decide)
  · refine .bind (.attempt (abreast_type h (by omega)) (A := fun _ => True) fun q c c' _ hc =>
      ⟨hc.isAt_eq (.inl rfl), fun _ => trivial⟩) fun q type _ hq ⟨htype, hsome, hnone⟩ => ?_
    subst htype
    cases type with
    | some type => exact .pure ⟨(hsome rfl).1, rfl⟩
    | none =>
      obtain rfl := hnone rfl
      exact h.abreast P q .expression hp

theorem abreast_armBody (hp : F.tokens.length < p + n) :
    F.Abreast P p (armBody parse) (armBody parse') (Moves p F.node) :=
  .ifCheck (.inl rfl) (by decide) (fun _ => h.abreast P p .block hp)
    (h.abreast P p .expression hp)

theorem abreast_matchArm (hp : F.tokens.length < p + n) :
    F.Abreast P p (matchArm bound parse) (matchArm bound' parse') (Moves p F.child) := by
  have hle := h.le
  have hle' := h.le'
  refine .start fun hstart => ?_
  refine .bind (abreast_armPattern h hp) fun q pattern _ _ ⟨hq, hpattern⟩ => ?_
  subst hpattern
  refine .expect (.inl rfl) (by decide) (by decide) fun _ _ => ?_
  refine .bind (abreast_armBody h (by omega)) fun r body _ _ ⟨hr, hbody⟩ => ?_
  subst hbody
  refine .bind (.finish hstart (by omega) rfl) fun u arm _ hu ⟨_, harm⟩ => ?_
  subst harm
  refine .bind (.skipSeparators (by omega) (by omega)) fun v _ _ hv _ => ?_
  exact .pure ⟨by omega, rfl⟩

theorem abreast_matchSubject (hp : F.tokens.length < p + n) :
    F.Abreast P p (matchSubject parse) (matchSubject parse') (Moves p F.node) := by
  refine .cursor fun {c c'} hc _ => ?_
  rw [hc.isAt_eq (.inl rfl), hc.isAt_eq (.inl rfl)]
  split
  · exact h.abreast P p .localVariables hp
  · exact h.abreast P p .expression hp

theorem abreast_matchExpression (hp : F.tokens.length ≤ p + n) :
    F.Abreast P p (matchExpression bound parse) (matchExpression bound' parse')
      (Moves p F.node) := by
  have hle := h.le
  have hle' := h.le'
  refine .start fun hstart => ?_
  refine .expect (.inl rfl) (by decide) (by decide) fun _ _ => ?_
  refine .expect (.inl rfl) (by decide) (by decide) fun _ _ => ?_
  refine .bind (abreast_matchSubject h (by omega)) fun q subject _ _ ⟨hq, hsubject⟩ => ?_
  subst hsubject
  refine .expect (.inl rfl) (by decide) (by decide) fun _ _ => ?_
  refine .expect_lBrace fun _ _ _ => ?_
  refine .bind (.collect (fun r hr => .whenAt fun c c' hc hdeep =>
    ⟨hc.isInside_eq hdeep, fun _ => abreast_matchArm h (by omega)⟩) (by omega) (by omega))
    fun r arms _ _ harms => ?_
  subst harms
  refine .expect_rBrace fun _ => ?_
  exact .finish hstart (by omega) rfl

/-! ### Expressions without operators -/

theorem abreast_primary (hp : F.tokens.length ≤ p + n) :
    F.Abreast P p (primary bound parse) (primary bound' parse') (Moves p F.node) := by
  refine .cursor fun {c c'} hc _ => ?_
  have hstart := hc.start
  have hleaf : ∀ {token : TokenKind} (kind : NodeKind), c.current.kind = token →
      token ≠ .endOfFile → token ≠ .rBrace →
        F.Abreast P p (leaf kind) (leaf kind) (Moves p F.node) := fun kind hkind hend hbrace =>
    .leaf_moves (hc.kind?_of_eq hkind hend) hbrace
  dsimp only
  obtain hsame | ⟨hend, hbegins⟩ := hc.kinds
  · rw [hsame]
    split
    · exact hleaf _ ‹c.current.kind = _› (by decide) (by decide)
    · exact hleaf _ ‹c.current.kind = _› (by decide) (by decide)
    · exact hleaf _ ‹c.current.kind = _› (by decide) (by decide)
    · exact hleaf _ ‹c.current.kind = _› (by decide) (by decide)
    · exact hleaf _ ‹c.current.kind = _› (by decide) (by decide)
    · exact hleaf _ ‹c.current.kind = _› (by decide) (by decide)
    · exact abreast_nameOrObjectLiteral h hp (hc.kind?_of_eq ‹c.current.kind = _› (by decide))
    · exact abreast_objectLiteral h hp hstart le_rfl none
    · refine .next (hc.kind?_of_eq ‹c.current.kind = _› (by decide)) (by decide) fun _ => ?_
      refine .bind (h.commaList rfl .expression (by omega)) fun q args _ hq hargs => ?_
      subst hargs
      refine .expect (.inl rfl) (by decide) (by decide) fun _ _ => ?_
      obtain ⟨elements, trailing⟩ := args
      match elements, trailing with
      | [single], false => exact .finish hstart (by omega) rfl
      | [], _ | _ :: _ :: _, _ | [_], true => exact .finish hstart (by omega) rfl
    · refine .next (hc.kind?_of_eq ‹c.current.kind = _› (by decide)) (by decide) fun _ => ?_
      refine .bind (h.commaList rfl .expression (by omega)) fun q args _ hq hargs => ?_
      subst hargs
      refine .expect (.inl rfl) (by decide) (by decide) fun _ _ => ?_
      exact .finish hstart (by omega) rfl
    · exact abreast_matchExpression h hp
    · exact .fail _
  · rw [hend]
    generalize c'.current.kind = kind at hbegins
    cases kind <;> first | exact .fail _ | cases hbegins

omit h in
theorem abreast_memberName : F.Abreast P p memberName memberName (Moves p F.node) := by
  refine .cursor fun {c c'} hc _ => ?_
  obtain hsame | ⟨hend, hbegins⟩ := hc.kinds
  · rw [hsame]
    split
    · exact .leaf_moves (hc.kind?_of_eq ‹c.current.kind = _› (by decide)) (by decide)
    · exact .leaf_moves (hc.kind?_of_eq ‹c.current.kind = _› (by decide)) (by decide)
    · exact .fail _
  · rw [hend]
    generalize c'.current.kind = kind at hbegins
    cases kind <;> first | exact .fail _ | cases hbegins

theorem abreast_postfixStep (hp : F.tokens.length < p + n) {start start' : Nat}
    (hstart : F.Starts i start start') (hip : i ≤ p) (expr : Nat) :
    F.Abreast P p (postfixStep bound parse start expr) (postfixStep bound' parse' start' (F.node expr))
      (Advances p F.node) := by
  refine .cursor fun {c c'} hc _ => ?_
  have hnone : F.Abreast P p (pure none) (pure none) (Advances p F.node) := .pure ⟨rfl, nofun⟩
  obtain hsame | ⟨hend, hbegins⟩ := hc.kinds
  · rw [hsame]
    split
    · refine .bind (abreast_argumentList h (by omega)) fun q args _ _ ⟨⟨hq, hargs⟩, _⟩ => ?_
      subst hargs
      exact .some_finish hstart hip hq rfl
    · refine .next (hc.kind?_of_eq ‹c.current.kind = _› (by decide)) (by decide) fun _ => ?_
      refine .bind abreast_memberName fun q member _ _ ⟨hq, hmember⟩ => ?_
      subst hmember
      exact .some_finish hstart hip (by omega) rfl
    · have hkind := hc.kind?_of_eq ‹c.current.kind = _› (by decide)
      rw [hc.kindAt_one hkind (by decide) (by decide)]
      split
      · exact hnone
      · refine .next hkind (by decide) fun _ => ?_
        exact .some_finish hstart hip (by omega) rfl
    · refine .bind (.attempt (abreast_typeArguments h (by omega)) (A := fun _ => True)
        fun q c c' _ hc => ⟨?_, fun _ => trivial⟩) fun q args _ hq ⟨hargs, hsome, hnone⟩ => ?_
      · rw [hc.isAt_eq (.inl rfl), hc.isAt_eq (.inl rfl)]
      · subst hargs
        cases args with
        | some args => exact .some_finish hstart hip (hsome rfl).1 rfl
        | none => exact .pure ⟨rfl, nofun⟩
    · exact hnone
  · rw [hend]
    generalize c'.current.kind = kind at hbegins
    cases kind <;> first | exact hnone | cases hbegins

theorem abreast_postfixed (hp : F.tokens.length ≤ p + n) :
    F.Abreast P p (postfixed bound parse) (postfixed bound' parse') (Moves p F.node) := by
  have hle := h.le
  have hle' := h.le'
  refine .start fun hstart => ?_
  refine .bind (abreast_primary h hp) fun q first _ _ ⟨hlt, hfirst⟩ => ?_
  subst hfirst
  exact (Abreast.iterate (fun r expr hr => abreast_postfixStep h (by omega) hstart (by omega) expr)
    (by omega) (by omega) first).mono fun _ _ _ _ hid => ⟨by omega, hid⟩

/-! ### Operators around expressions -/

omit h in
/-- The tokens of a type test. -/
theorem Cursors.isNegated_eq (hc : F.Cursors p c c') :
    (c'.isAt .bang && c'.kindAt 1 == .kwIs) = (c.isAt .bang && c.kindAt 1 == .kwIs) ∧
      ((c.isAt .bang && c.kindAt 1 == .kwIs) = true → F.Readable p 2) := by
  rw [hc.isAt_eq (.inl rfl)]
  rcases hat : c.isAt .bang with _ | _
  · exact ⟨rfl, nofun⟩
  · have hkind := hc.kind?_of_isAt (by decide) hat
    rw [hc.kindAt_one hkind (by decide) (by decide), Bool.true_and]
    refine ⟨rfl, fun his => ?_⟩
    have hnext := hc.kind?_of_kindAt_one hkind (by decide) (beq_iff_eq.mp his)
    exact (readable_one hnext (by decide)).succ hkind (by decide)

theorem abreast_castStep (hp : F.tokens.length < p + n) {start start' : Nat}
    (hstart : F.Starts i start start') (hip : i ≤ p) (expr : Nat) :
    F.Abreast P p (castStep bound parse start expr) (castStep bound' parse' start' (F.node expr))
      (Advances p F.node) := by
  refine .ifEat rfl (by decide) (fun _ => ?_) ?_
  · refine .bind (abreast_type h (by omega)) fun q target _ _ ⟨hq, htarget⟩ => ?_
    subst htarget
    exact .some_finish hstart hip (by omega) rfl
  · refine .cursor fun {c c'} hc _ => ?_
    obtain ⟨hnegated, hreadable⟩ := hc.isNegated_eq
    dsimp only
    rw [hnegated, hc.isAt_eq (.inl rfl)]
    split
    · rename_i hat
      have hoperator : F.Abreast P p
          (operator (if (c.isAt .bang && c.kindAt 1 == .kwIs) = true then 2 else 1))
          (operator (if (c.isAt .bang && c.kindAt 1 == .kwIs) = true then 2 else 1))
          (Moves p F.node) := by
        split
        · exact .operator Nat.two_pos (hreadable ‹_›)
        · rename_i hplain
          have his := (Bool.or_eq_true_iff.mp hat).resolve_right hplain
          exact .operator Nat.one_pos
            (readable_one (hc.kind?_of_isAt (by decide) his) (by decide))
      refine .bind hoperator fun q op _ _ ⟨hq, hop⟩ => ?_
      subst hop
      refine .bind (abreast_type h (by omega)) fun r rhs _ _ ⟨hr, hrhs⟩ => ?_
      subst hrhs
      exact .some_finish hstart hip (by omega) rfl
    · exact .pure ⟨rfl, nofun⟩

theorem abreast_cast (hp : F.tokens.length ≤ p + n) :
    F.Abreast P p (cast bound parse) (cast bound' parse') (Moves p F.node) := by
  have hle := h.le
  have hle' := h.le'
  refine .start fun hstart => ?_
  refine .bind (abreast_postfixed h hp) fun q first _ _ ⟨hlt, hfirst⟩ => ?_
  subst hfirst
  exact (Abreast.iterate (fun r expr hr => abreast_castStep h (by omega) hstart (by omega) expr)
    (by omega) (by omega) first).mono fun _ _ _ _ hid => ⟨by omega, hid⟩

theorem abreast_unary (hp : F.tokens.length ≤ p + n) :
    F.Abreast P p (unary bound parse) (unary bound' parse') (Moves p F.node) := by
  refine .cursor fun {c c'} hc _ => ?_
  have hstart := hc.start
  have hoperator : ∀ {token : TokenKind}, c.current.kind = token → token ≠ .endOfFile →
      token ≠ .rBrace → F.Abreast P p
        (do
          let op ← operator 1
          let argument ← parse .unary
          finish .unaryOperator c.start [.labeled .operatorName op, .labeled .argument argument])
        (do
          let op ← operator 1
          let argument ← parse' .unary
          finish .unaryOperator c'.start [.labeled .operatorName op, .labeled .argument argument])
        (Moves p F.node) := by
    intro token hkind hend hbrace
    refine .bind (.operator Nat.one_pos (readable_one (hc.kind?_of_eq hkind hend) hbrace))
      fun q op _ _ ⟨hq, hop⟩ => ?_
    subst hop
    refine .bind (h.abreast P q .unary (by omega)) fun r argument _ _ ⟨hr, hargument⟩ => ?_
    subst hargument
    exact .finish hstart (by omega) rfl
  obtain hsame | ⟨hend, hbegins⟩ := hc.kinds
  · rw [hsame]
    split
    · exact hoperator ‹c.current.kind = _› (by decide) (by decide)
    · exact hoperator ‹c.current.kind = _› (by decide) (by decide)
    · exact hoperator ‹c.current.kind = _› (by decide) (by decide)
    · exact hoperator ‹c.current.kind = _› (by decide) (by decide)
    · refine .next (hc.kind?_of_eq ‹c.current.kind = _› (by decide)) (by decide) fun _ => ?_
      refine .bind (h.abreast P _ .unary (by omega)) fun q argument _ _ ⟨hq, hargument⟩ => ?_
      subst hargument
      exact .finish hstart (by omega) rfl
    · exact abreast_cast h hp
  · have hcast := abreast_cast (P := P) h hp
    rw [hend]
    generalize c'.current.kind = kind at hbegins
    cases kind <;> first | exact hcast | cases hbegins

theorem abreast_binaryStep (hp : F.tokens.length < p + n) (level : Nat) {start start' : Nat}
    (hstart : F.Starts i start start') (hip : i ≤ p) (left : Nat) :
    F.Abreast P p (binaryStep parse level start left) (binaryStep parse' level start' (F.node left))
      (Advances p F.node) := by
  refine .cursor fun {c c'} hc _ => ?_
  rw [hc.binaryOperator?_eq]
  cases hop : binaryOperator? c with
  | none => exact .pure ⟨rfl, nofun⟩
  | some op =>
    obtain ⟨hcount, hreadable⟩ := hc.readable_binaryOperator? hop
    dsimp only
    split
    · exact .pure ⟨rfl, nofun⟩
    · refine .bind (.operator hcount hreadable) fun q name _ _ ⟨hq, hname⟩ => ?_
      subst hname
      refine .bind (h.abreast P q _ (by omega)) fun r right _ _ ⟨hr, hright⟩ => ?_
      subst hright
      exact .some_finish hstart hip (by omega) rfl

theorem abreast_binary (hp : F.tokens.length ≤ p + n) (level : Nat) :
    F.Abreast P p (binary bound parse level) (binary bound' parse' level) (Moves p F.node) := by
  have hle := h.le
  have hle' := h.le'
  refine .start fun hstart => ?_
  refine .bind (abreast_unary h hp) fun q first _ _ ⟨hlt, hfirst⟩ => ?_
  subst hfirst
  exact (Abreast.iterate
    (fun r left hr => abreast_binaryStep h (by omega) level hstart (by omega) left)
    (by omega) (by omega) first).mono fun _ _ _ _ hid => ⟨by omega, hid⟩

theorem abreast_nullishStep (hp : F.tokens.length < p + n) {start start' : Nat}
    (hstart : F.Starts i start start') (hip : i ≤ p) (left : Nat) :
    F.Abreast P p (nullishStep bound parse start left)
      (nullishStep bound' parse' start' (F.node left)) (Advances p F.node) := by
  refine .ifCheck (.inl rfl) (by decide) (fun hkind => ?_) (.pure ⟨rfl, nofun⟩)
  refine .bind (.operator Nat.one_pos (readable_one hkind (by decide))) fun q op _ _ ⟨hq, hop⟩ => ?_
  subst hop
  refine .bind (abreast_binary h (by omega) 1) fun r right _ _ ⟨hr, hright⟩ => ?_
  subst hright
  exact .some_finish hstart hip (by omega) rfl

theorem abreast_nullish (hp : F.tokens.length ≤ p + n) :
    F.Abreast P p (nullish bound parse) (nullish bound' parse') (Moves p F.node) := by
  have hle := h.le
  have hle' := h.le'
  refine .start fun hstart => ?_
  refine .bind (abreast_binary h hp 1) fun q first _ _ ⟨hlt, hfirst⟩ => ?_
  subst hfirst
  exact (Abreast.iterate (fun r left hr => abreast_nullishStep h (by omega) hstart (by omega) left)
    (by omega) (by omega) first).mono fun _ _ _ _ hid => ⟨by omega, hid⟩

theorem abreast_ternary (hp : F.tokens.length ≤ p + n) :
    F.Abreast P p (ternary bound parse) (ternary bound' parse') (Moves p F.node) := by
  refine .start fun hstart => ?_
  refine .bind (abreast_nullish h hp) fun q condition _ _ ⟨hq, hcondition⟩ => ?_
  subst hcondition
  refine .ifEat rfl (by decide) (fun _ => ?_) (.pure ⟨hq, rfl⟩)
  refine .bind (h.abreast P _ .expression (by omega)) fun r yes _ _ ⟨hr, hyes⟩ => ?_
  subst hyes
  refine .expect (.inl rfl) (by decide) (by decide) fun _ _ => ?_
  refine .bind (h.abreast P _ .expression (by omega)) fun u no _ _ ⟨hu, hno⟩ => ?_
  subst hno
  exact .finish hstart (by omega) rfl

theorem abreast_expression (hp : F.tokens.length ≤ p + n) :
    F.Abreast P p (expression bound parse) (expression bound' parse') (Moves p F.node) := by
  refine .start fun hstart => ?_
  refine .bind (abreast_ternary h hp) fun q left _ _ ⟨hq, hleft⟩ => ?_
  subst hleft
  refine .ifEat rfl (by decide) (fun _ => ?_) (.cursor fun {c c'} hc _ => ?_)
  · refine .bind (h.abreast P _ .expression (by omega)) fun r right _ _ ⟨hr, hright⟩ => ?_
    subst hright
    exact .finish hstart (by omega) rfl
  · rw [hc.assignmentOperator?_eq]
    cases hop : assignmentOperator? c with
    | none => exact .pure ⟨hq, rfl⟩
    | some count =>
      obtain ⟨hcount, hreadable⟩ := hc.readable_assignmentOperator? hop
      refine .bind (.operator hcount hreadable) fun r op _ _ ⟨hr, hname⟩ => ?_
      subst hname
      refine .bind (h.abreast P r .expression (by omega)) fun u right _ _ ⟨hu, hright⟩ => ?_
      subst hright
      exact .finish hstart (by omega) rfl

end

end Pairing

end TolkAnalysis
