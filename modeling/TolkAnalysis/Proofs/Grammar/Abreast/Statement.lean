import TolkAnalysis.Grammar.Statement
import TolkAnalysis.Proofs.Grammar.Abreast.Expression

/-!
# Statements read abreast

Blocks stand between braces, so while one is read the lists do not part: a statement that cannot
be read is skipped up to the same place in both. `agree_grammar` closes the grammar: by
induction on the number of tokens that are left, the parsers of every nonterminal read abreast.
-/

namespace TolkAnalysis

namespace Pairing

open TolkAnalysis.Parser TolkAnalysis.Grammar

variable {F : Pairing} {P p n bound bound' : Nat} {parse parse' : Nonterminal → Parser Nat}

variable (h : F.Agree n bound bound' parse parse')

/-! ### Local variables -/

section

include h

theorem abreast_variableName (hp : F.tokens.length ≤ p + n) {token : TokenKind}
    (hkind : F.kind? p = some token) (hbrace : token ≠ .rBrace) (kind : NodeKind) :
    F.Abreast P p (variableName bound parse kind) (variableName bound' parse' kind)
      (Moves p F.node) := by
  refine .start fun hstart => ?_
  refine .bind (.leaf hkind hbrace) fun q name _ _ ⟨hq, hname⟩ => ?_
  subst hname
  refine .bind (.after? rfl (by decide) fun r hr => abreast_type h (by omega))
    fun r typed _ hr htyped => ?_
  subst htyped
  refine .bind (.mark? fun c c' hc => ⟨hc.isAtWord_eq (by decide), hc.kind?_of_isAtWord⟩)
    fun u redef _ hu hredef => ?_
  subst hredef
  exact .finish hstart (by omega) (by simp)

theorem abreast_patternList (hp : F.tokens.length ≤ p + n) {token close : TokenKind}
    (hkind : F.kind? p = some token) (hbrace : token ≠ .rBrace) (kind : NodeKind)
    (hclose : close.mayFollow = false) (hcloses : close ≠ .rBrace) :
    F.Abreast P p (patternList bound parse kind close) (patternList bound' parse' kind close)
      (Moves p F.node) := by
  have hend : close ≠ .endOfFile := by
    rintro rfl
    cases hclose
  refine .start fun hstart => ?_
  refine .next hkind hbrace fun _ => ?_
  refine .bind (h.commaList hclose .variablePattern (by omega)) fun q vars _ hq hvars => ?_
  subst hvars
  refine .expect (.inl hclose) hend hcloses fun _ _ => ?_
  exact .finish hstart (by omega) rfl

theorem abreast_variablePattern (hp : F.tokens.length ≤ p + n) :
    F.Abreast P p (variablePattern bound parse) (variablePattern bound' parse')
      (Moves p F.node) := by
  refine .cursor fun {c c'} hc _ => ?_
  obtain hsame | ⟨hend, hbegins⟩ := hc.kinds
  · rw [hsame]
    split
    · exact abreast_patternList h hp (hc.kind?_of_eq ‹c.current.kind = _› (by decide)) (by decide) _
        rfl (by decide)
    · exact abreast_patternList h hp (hc.kind?_of_eq ‹c.current.kind = _› (by decide)) (by decide) _
        rfl (by decide)
    · exact abreast_variableName h hp (hc.kind?_of_eq ‹c.current.kind = _› (by decide)) (by decide) _
    · exact abreast_variableName h hp (hc.kind?_of_eq ‹c.current.kind = _› (by decide)) (by decide) _
    · exact .fail _
  · rw [hend]
    generalize c'.current.kind = kind at hbegins
    cases kind <;> first | exact .fail _ | cases hbegins

omit h in
theorem abreast_variableKeyword :
    F.Abreast P p variableKeyword variableKeyword (Moves p id) := by
  refine .ifEat rfl (by decide) (fun _ => .pure ⟨Nat.lt_succ_self p, rfl⟩) ?_
  exact .expect (.inl rfl) (by decide) (by decide) fun _ _ => .pure ⟨Nat.lt_succ_self p, rfl⟩

theorem abreast_localVariables (hp : F.tokens.length ≤ p + n) :
    F.Abreast P p (localVariables bound parse) (localVariables bound' parse') (Moves p F.node) := by
  refine .start fun hstart => ?_
  refine .bind abreast_variableKeyword fun q _ _ _ ⟨hq, _⟩ => ?_
  refine .bind (abreast_variablePattern h (by omega)) fun r lhs _ _ ⟨hr, hlhs⟩ => ?_
  subst hlhs
  refine .bind (.after? rfl (by decide) fun u hu => abreast_expression h (by omega))
    fun u value _ hu hvalue => ?_
  subst hvalue
  exact .finish hstart (by omega) (by simp)

/-! ### Blocks -/

omit h in
theorem Cursors.kind?_of_isInside {c c' : Cursor} (hc : F.Cursors p c c')
    (hinside : c.isInside = true) : p < F.tokens.length ∧ F.kind? p ≠ some .rBrace := by
  have hcurrent : c.current.kind ≠ .rBrace ∧ c.current.kind ≠ .endOfFile := by
    simpa [Cursor.isInside, Cursor.isAtEnd, Cursor.isAt] using hinside
  have hkind := hc.kind?_eq hcurrent.2
  refine ⟨lt_of_kind? hkind, ?_⟩
  rw [hkind]
  exact fun heq => hcurrent.1 (Option.some.inj heq)

/-- A statement between braces. Skipping what cannot be read stops at the same place, since the
lists do not part before the braces are closed. -/
theorem abreast_statementOrSkipped (hp : F.tokens.length < p + n)
    (hinside : p < F.tokens.length ∧ F.kind? p ≠ some .rBrace) :
    F.Abreast (P + 1) p (statementOrSkipped bound parse) (statementOrSkipped bound' parse')
      (Moves p F.node) := by
  have hle := h.le
  have hle' := h.le'
  refine .get fun {s s'} hs => ?_
  refine .tryCatch (h.abreast _ p .statement hp) fun q e e' hq herror => ?_
  refine .bind (.recover (.inl (Nat.succ_pos P)) herror hs.cursors hs.built.arena.size_eq hq
    hinside.1 (.inr hinside.2) (by omega) (by omega)) fun r skipped _ _ ⟨hr, hskipped⟩ => ?_
  subst hskipped
  exact .eat_pure rfl (by decide) ⟨by omega, rfl⟩ ⟨hr, rfl⟩

theorem abreast_blockItem (hp : F.tokens.length < p + n)
    (hinside : p < F.tokens.length ∧ F.kind? p ≠ some .rBrace) :
    F.Abreast (P + 1) p (blockItem bound parse) (blockItem bound' parse')
      (Moves p (List.map F.child)) := by
  refine .ifEat rfl (by decide) (fun _ => .pure ⟨Nat.lt_succ_self p, rfl⟩) ?_
  refine .bind (abreast_statementOrSkipped h hp hinside) fun q id _ _ ⟨hq, hid⟩ => ?_
  subst hid
  exact .pure ⟨hq, rfl⟩

theorem abreast_block (hp : F.tokens.length ≤ p + n) :
    F.Abreast P p (block bound parse) (block bound' parse') (Moves p F.node) := by
  have hle := h.le
  have hle' := h.le'
  refine .start fun hstart => ?_
  refine .expect_lBrace fun _ _ _ => ?_
  refine .bind (.collect (fun q hq => .whenAt fun c c' hc hdeep => ⟨hc.isInside_eq hdeep,
    fun hinside => abreast_blockItem h (by omega) (hc.kind?_of_isInside hinside)⟩)
    (by omega) (by omega)) fun q statements _ hq hstatements => ?_
  subst hstatements
  refine .expect_rBrace fun _ => ?_
  exact .finish hstart (by omega) List.map_flatten.symm

/-! ### Statements -/

theorem abreast_condition (hp : F.tokens.length ≤ p + n) :
    F.Abreast P p (condition bound parse) (condition bound' parse') (Moves p F.node) := by
  refine .expect (.inl rfl) (by decide) (by decide) fun _ _ => ?_
  refine .bind (abreast_expression h (by omega)) fun q expr _ _ ⟨hq, hexpr⟩ => ?_
  subst hexpr
  exact .expect (.inl rfl) (by decide) (by decide) fun _ _ => .pure ⟨by omega, rfl⟩

theorem abreast_alternative (hp : F.tokens.length < p + n) :
    F.Abreast P p (alternative bound parse) (alternative bound' parse') (Moves p F.node) :=
  .ifCheck (.inl rfl) (by decide) (fun _ => h.abreast P p .ifStatement hp)
    (abreast_block h hp.le)

theorem abreast_ifStatement (hp : F.tokens.length ≤ p + n) :
    F.Abreast P p (ifStatement bound parse) (ifStatement bound' parse') (Moves p F.node) := by
  refine .start fun hstart => ?_
  refine .expect (.inl rfl) (by decide) (by decide) fun _ _ => ?_
  refine .bind (abreast_condition h (by omega)) fun q test _ _ ⟨hq, htest⟩ => ?_
  subst htest
  refine .bind (abreast_block h (by omega)) fun r consequence _ _ ⟨hr, hconsequence⟩ => ?_
  subst hconsequence
  refine .bind (.after? rfl (by decide) fun u hu => abreast_alternative h (by omega))
    fun u other _ hu hother => ?_
  subst hother
  exact .finish hstart (by omega) (by simp)

omit h in
theorem abreast_catchVariable : F.Abreast P p catchVariable catchVariable (Moves p F.node) :=
  .ifCheck (.inl rfl) (by decide) (fun hkind => .leaf_moves hkind (by decide))
    (Abreast.expectName.mono fun _ _ _ _ ⟨_, hq, hid⟩ => ⟨hq ▸ Nat.lt_succ_self p, hid⟩)

omit h in
theorem abreast_catchVariables :
    F.Abreast P p catchVariables catchVariables (Maps (List.map F.child)) := by
  refine .ifEat rfl (by decide) (fun _ => ?_) (.pure rfl)
  refine .ifEat rfl (by decide) (fun _ => .pure rfl) ?_
  refine .bind abreast_catchVariable fun q first _ _ ⟨hq, hfirst⟩ => ?_
  subst hfirst
  refine .bind (.after? rfl (by decide) fun r hr => abreast_catchVariable)
    fun r second _ hr hsecond => ?_
  subst hsecond
  exact .expect (.inl rfl) (by decide) (by decide) fun _ _ => .pure rfl

theorem abreast_catchClause (hp : F.tokens.length ≤ p + n) :
    F.Abreast P p (catchClause bound parse) (catchClause bound' parse') (Moves p F.node) := by
  refine .start fun hstart => ?_
  refine .expect (.inl rfl) (by decide) (by decide) fun _ _ => ?_
  refine .bind abreast_catchVariables fun q caught _ hq hcaught => ?_
  subst hcaught
  refine .bind (abreast_block h (by omega)) fun r body _ _ ⟨hr, hbody⟩ => ?_
  subst hbody
  exact .finish hstart (by omega) (by simp)

theorem abreast_tryStatement (hp : F.tokens.length ≤ p + n) :
    F.Abreast P p (tryStatement bound parse) (tryStatement bound' parse') (Moves p F.node) := by
  refine .start fun hstart => ?_
  refine .expect (.inl rfl) (by decide) (by decide) fun _ _ => ?_
  refine .bind (abreast_block h (by omega)) fun q body _ _ ⟨hq, hbody⟩ => ?_
  subst hbody
  refine .bind (abreast_catchClause h (by omega)) fun r clause _ _ ⟨hr, hclause⟩ => ?_
  subst hclause
  exact .finish hstart (by omega) rfl

theorem abreast_assertion (hp : F.tokens.length ≤ p + n) :
    F.Abreast P p (assertion bound parse) (assertion bound' parse') (Moves p F.node) := by
  refine .start fun hstart => ?_
  refine .expect (.inl rfl) (by decide) (by decide) fun _ _ => ?_
  refine .expect (.inl rfl) (by decide) (by decide) fun _ _ => ?_
  refine .bind (abreast_expression h (by omega)) fun q test _ _ ⟨hq, htest⟩ => ?_
  subst htest
  refine .bind (.after? rfl (by decide) fun r hr => abreast_expression h (by omega))
    fun r inner _ hr hinner => ?_
  subst hinner
  refine .expect (.inl rfl) (by decide) (by decide) fun _ _ => ?_
  refine .bind (.after? rfl (by decide) fun u hu => abreast_expression h (by omega))
    fun u outer _ hu houter => ?_
  subst houter
  refine .expect (.inl rfl) (by decide) (by decide) fun _ _ => ?_
  exact .finish hstart (by omega) (by simp)

theorem abreast_returnValue (hp : F.tokens.length ≤ p + n) :
    F.Abreast P p (returnValue bound parse) (returnValue bound' parse')
      (Maps (List.map F.child)) := by
  refine .ifCheck (.inl rfl) (by decide) (fun _ => .pure rfl) ?_
  refine .bind (abreast_expression h hp) fun q value _ _ ⟨_, hvalue⟩ => ?_
  subst hvalue
  exact .pure rfl

variable {token : TokenKind}

theorem abreast_returnStatement (hp : F.tokens.length ≤ p + n) (hkind : F.kind? p = some token)
    (hbrace : token ≠ .rBrace) :
    F.Abreast P p (returnStatement bound parse) (returnStatement bound' parse')
      (Moves p F.node) := by
  refine .start fun hstart => ?_
  refine .next hkind hbrace fun _ => ?_
  refine .bind (abreast_returnValue h (by omega)) fun q value _ hq hvalue => ?_
  subst hvalue
  refine .expect (.inl rfl) (by decide) (by decide) fun _ _ => ?_
  exact .finish hstart (by omega) rfl

theorem abreast_whileStatement (hp : F.tokens.length ≤ p + n) (hkind : F.kind? p = some token)
    (hbrace : token ≠ .rBrace) :
    F.Abreast P p (whileStatement bound parse) (whileStatement bound' parse')
      (Moves p F.node) := by
  refine .start fun hstart => ?_
  refine .next hkind hbrace fun _ => ?_
  refine .bind (abreast_condition h (by omega)) fun q test _ _ ⟨hq, htest⟩ => ?_
  subst htest
  refine .bind (abreast_block h (by omega)) fun r body _ _ ⟨hr, hbody⟩ => ?_
  subst hbody
  exact .finish hstart (by omega) rfl

theorem abreast_doWhileStatement (hp : F.tokens.length ≤ p + n) (hkind : F.kind? p = some token)
    (hbrace : token ≠ .rBrace) :
    F.Abreast P p (doWhileStatement bound parse) (doWhileStatement bound' parse')
      (Moves p F.node) := by
  refine .start fun hstart => ?_
  refine .next hkind hbrace fun _ => ?_
  refine .bind (abreast_block h (by omega)) fun q body _ _ ⟨hq, hbody⟩ => ?_
  subst hbody
  refine .expect (.inl rfl) (by decide) (by decide) fun _ _ => ?_
  refine .bind (abreast_condition h (by omega)) fun r test _ _ ⟨hr, htest⟩ => ?_
  subst htest
  refine .expect (.inl rfl) (by decide) (by decide) fun _ _ => ?_
  exact .finish hstart (by omega) rfl

theorem abreast_repeatStatement (hp : F.tokens.length ≤ p + n) (hkind : F.kind? p = some token)
    (hbrace : token ≠ .rBrace) :
    F.Abreast P p (repeatStatement bound parse) (repeatStatement bound' parse')
      (Moves p F.node) := by
  refine .start fun hstart => ?_
  refine .next hkind hbrace fun _ => ?_
  refine .bind (abreast_condition h (by omega)) fun q count _ _ ⟨hq, hcount⟩ => ?_
  subst hcount
  refine .bind (abreast_block h (by omega)) fun r body _ _ ⟨hr, hbody⟩ => ?_
  subst hbody
  exact .finish hstart (by omega) rfl

theorem abreast_throwStatement (hp : F.tokens.length ≤ p + n) (hkind : F.kind? p = some token)
    (hbrace : token ≠ .rBrace) :
    F.Abreast P p (throwStatement bound parse) (throwStatement bound' parse')
      (Moves p F.node) := by
  refine .start fun hstart => ?_
  refine .next hkind hbrace fun _ => ?_
  refine .bind (abreast_expression h (by omega)) fun q value _ _ ⟨hq, hvalue⟩ => ?_
  subst hvalue
  refine .expect (.inl rfl) (by decide) (by decide) fun _ _ => ?_
  exact .finish hstart (by omega) rfl

omit h in
theorem abreast_wordStatement (hkind : F.kind? p = some token) (hbrace : token ≠ .rBrace)
    (kind : NodeKind) :
    F.Abreast P p (wordStatement kind) (wordStatement kind) (Moves p F.node) := by
  refine .start fun hstart => ?_
  refine .next hkind hbrace fun _ => ?_
  refine .expect (.inl rfl) (by decide) (by decide) fun _ _ => ?_
  exact .finish hstart (by omega) rfl

omit h in
/-- Whether the semicolon may be left out depends on the node that has been built, and the nodes
of both parsers are of one kind. -/
theorem abreast_closeExpression (expr : Nat) :
    F.Abreast P p (closeExpression expr) (closeExpression (F.node expr)) (Maps id) := by
  refine .get fun {s s'} hs => ?_
  have hkind : (s'.arena.nodes[F.node expr]?).map (·.kind) = (s.arena.nodes[expr]?).map (·.kind) :=
    hs.built.arena.kind_eq expr
  dsimp only
  rw [hkind]
  split
  · exact .eat (.inl rfl) (by decide) (by decide) (fun _ => .pure rfl) (.pure rfl)
  · exact .expect (.inl rfl) (by decide) (by decide) fun _ _ => .pure rfl

theorem abreast_expressionStatement (hp : F.tokens.length ≤ p + n) :
    F.Abreast P p (expressionStatement bound parse) (expressionStatement bound' parse')
      (Moves p F.node) := by
  refine .start fun hstart => ?_
  refine .bind (abreast_expression h hp) fun q expr _ _ ⟨hq, hexpr⟩ => ?_
  subst hexpr
  refine .bind (abreast_closeExpression expr) fun r _ _ hr _ => ?_
  exact .finish hstart (by omega) rfl

theorem abreast_variableStatement (hp : F.tokens.length ≤ p + n) :
    F.Abreast P p (variableStatement bound parse) (variableStatement bound' parse')
      (Moves p F.node) := by
  refine .bind (abreast_localVariables h hp) fun q declaration _ _ ⟨hq, hdeclaration⟩ => ?_
  subst hdeclaration
  exact .expect (.inl rfl) (by decide) (by decide) fun _ _ => .pure ⟨by omega, rfl⟩

theorem abreast_statement (hp : F.tokens.length ≤ p + n) :
    F.Abreast P p (statement bound parse) (statement bound' parse') (Moves p F.node) := by
  refine .cursor fun {c c'} hc _ => ?_
  have hkind : ∀ {token : TokenKind}, c.current.kind = token → token ≠ .endOfFile →
      F.kind? p = some token := hc.kind?_of_eq
  obtain hsame | ⟨hend, hbegins⟩ := hc.kinds
  · rw [hsame]
    split
    · exact abreast_variableStatement h hp
    · exact abreast_variableStatement h hp
    · exact abreast_block h hp
    · exact abreast_returnStatement h hp (hkind ‹_› (by decide)) (by decide)
    · exact abreast_ifStatement h hp
    · exact abreast_whileStatement h hp (hkind ‹_› (by decide)) (by decide)
    · exact abreast_doWhileStatement h hp (hkind ‹_› (by decide)) (by decide)
    · exact abreast_repeatStatement h hp (hkind ‹_› (by decide)) (by decide)
    · exact abreast_tryStatement h hp
    · exact abreast_throwStatement h hp (hkind ‹_› (by decide)) (by decide)
    · exact abreast_assertion h hp
    · exact abreast_wordStatement (hkind ‹_› (by decide)) (by decide) _
    · exact abreast_wordStatement (hkind ‹_› (by decide)) (by decide) _
    · exact abreast_expressionStatement h hp
  · have hexpression := abreast_expressionStatement (P := P) h hp
    rw [hend]
    generalize c'.current.kind = kind at hbegins
    cases kind <;> first | exact hexpression | cases hbegins

/-! ### The whole grammar -/

theorem abreast_production (hp : F.tokens.length ≤ p + n) (nonterminal : Nonterminal) :
    F.Abreast P p (production bound parse nonterminal) (production bound' parse' nonterminal)
      (Moves p F.node) := by
  cases nonterminal with
  | type => exact abreast_type h hp
  | nullableType => exact abreast_nullableType h hp
  | expression => exact abreast_expression h hp
  | binary level => exact abreast_binary h hp level
  | unary => exact abreast_unary h hp
  | variablePattern => exact abreast_variablePattern h hp
  | localVariables => exact abreast_localVariables h hp
  | block => exact abreast_block h hp
  | ifStatement => exact abreast_ifStatement h hp
  | statement => exact abreast_statement h hp

end

/-- The parsers of the grammar read abreast where fewer tokens are left than their bounds. -/
theorem agree_grammar (hbound : n ≤ bound) (hbound' : n ≤ bound') :
    F.Agree n bound bound' (parser bound) (parser bound') := by
  induction n generalizing bound bound' with
  | zero => exact ⟨hbound, hbound', fun P p _ hp => .past hp⟩
  | succ n ih =>
    cases bound with
    | zero => exact absurd hbound (Nat.not_succ_le_zero n)
    | succ bound =>
      cases bound' with
      | zero => exact absurd hbound' (Nat.not_succ_le_zero n)
      | succ bound' =>
        have hagree := ih (Nat.le_of_succ_le_succ hbound) (Nat.le_of_succ_le_succ hbound')
        exact ⟨hbound, hbound', fun P p nonterminal hp =>
          abreast_production hagree (Nat.le_of_lt_succ hp) nonterminal⟩

end Pairing

end TolkAnalysis
